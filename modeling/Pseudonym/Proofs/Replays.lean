import Pseudonym.Proofs.Keeping

/-!
# Replaying what was announced

A change that was announced can be made again to a disk: a new text goes to the file that the old one is read from, in the same
charset, and a new path is given to a regular file (`Event.Fits`, `Event.apply`). A pass is on record if replaying what it announces
leads from the disk that it finds to the disk that it leaves (`Pass.Logs`). Two passes that are on record are on record one after
the other (`Pass.logs_bind`), and so are the steps in between that change no file (`Pass.logs_quiet`). Whatever comes of it, the
class pass is on record, and so is what rewrites the references to the images (`Pass.logs_classPass`, `Pass.logs_rewriteTexts`).
-/

namespace Pseudonym

variable {σ : Type}

/-! ## Changes to a disk -/

namespace Disk

/-- The text that is read from a file. -/
def text? (d : Disk) (p : Path) : Option Text := (d.read p).toOption.map fun bytes => (Charset.decode bytes).1

/-- Does a path lead to a regular file, and not to a link? -/
def isFile (d : Disk) (p : Path) : Bool :=
  match d.follow .keep maxLinks (origin d.workingDirectory p) (route p) with
  | .ok loc => (d.entry? loc matches some (.file _))
  | .error _ => false

end Disk

namespace Event

/-- Is a change one that can be made to a disk: is the old text the text of the file, or is it a regular file that gets another
path? -/
def Fits (d : Disk) : Event → Prop
  | .content path old _ => d.text? path = some old
  | .rename old _ => d.isFile old = true

instance (d : Disk) : (e : Event) → Decidable (e.Fits d)
  | .content path old _ => inferInstanceAs (Decidable (d.text? path = some old))
  | .rename old _ => inferInstanceAs (Decidable (d.isFile old = true))

/-- Makes a change to a disk. A new text is written in the charset that the old one is read in. -/
def apply (d : Disk) : Event → Except DiskError Disk
  | .content path _ new => do
    let bytes ← d.read path
    d.write path ((Charset.decode bytes).2.encode new)
  | .rename old new => d.move old new

/-- How many of some changes are new texts, and how many are new paths. -/
def tally (es : List Event) : Nat × Nat := (es.countP fun e => !e.isRename, es.countP Event.isRename)

/-- Changes are counted one after the other. -/
theorem tally_append (es es' : List Event) :
    tally (es ++ es') = ((tally es).1 + (tally es').1, (tally es).2 + (tally es').2) := by
  simp [tally]

end Event

/-- The disk after some changes, one after the other, if each of them fits and none is refused. -/
def Disk.replay (d : Disk) : List Event → Option Disk
  | [] => some d
  | e :: es => if e.Fits d then (e.apply d).toOption.bind (replay · es) else none

namespace Disk

variable {d d' : Disk}

/-- Changes are replayed one after the other. -/
theorem replay_append (es es' : List Event) : d.replay (es ++ es') = (d.replay es).bind (replay · es') := by
  induction es generalizing d with
  | nil => rfl
  | cons e es ih =>
    rw [List.cons_append, replay, replay]
    split
    · rw [Option.bind_assoc]
      exact congrArg _ (funext fun d' => ih)
    · rfl

/-- A change that fits and is made is replayed. -/
theorem replay_singleton {e : Event} (hfits : e.Fits d) (h : e.apply d = .ok d') : d.replay [e] = some d' := by
  rw [replay, if_pos hfits, h]
  rfl

end Disk

/-! ## Passes that are on record -/

namespace Pass

variable {α β : Type} {o : Options}

/-- Whatever comes of a pass, replaying what it announces leads from the disk that it finds to the one that it leaves, and `tells` is
true of the value and the changes. A pass that fails may have failed at the last change that it announces: then this one fits
the disk that is left, but for those that are `excused`. -/
def Logs (excused : Disk → Event → Prop) (x : Pass σ α) (w : Workspace σ) (tells : α → List Event → Prop) : Prop :=
  ∃ es, (x.outcome w).2.events = w.events ++ es ∧
    match x.outcome w with
    | (.ok a, w') => w.disk.replay es = some w'.disk ∧ tells a es
    | (.error _, w') => w.disk.replay es = some w'.disk ∨
        ∃ done e, es = done ++ [e] ∧ w.disk.replay done = some w'.disk ∧ (e.Fits w'.disk ∨ excused w'.disk e)

variable {excused : Disk → Event → Prop} {w : Workspace σ}

/-- A pass that ends well has made the changes that it announces. -/
theorem Logs.of_yields {x : Pass σ α} {tells : α → List Event → Prop} (h : x.Logs excused w tells) {a : α} {w' : Workspace σ}
    (hx : x.Yields w a w') : ∃ es, w'.events = w.events ++ es ∧ w.disk.replay es = some w'.disk ∧ tells a es := by
  obtain ⟨es, hes, h⟩ := h
  rw [hx] at hes h
  exact ⟨es, hes, h⟩

/-- A pass that fails has made the changes that it announces, or all but the last. -/
theorem Logs.of_fails {x : Pass σ α} {tells : α → List Event → Prop} (h : x.Logs excused w tells)
    (hx : (x.outcome w).1.toOption = none) : ∃ es, (x.outcome w).2.events = w.events ++ es ∧
      (w.disk.replay es = some (x.outcome w).2.disk ∨ ∃ done e, es = done ++ [e] ∧
        w.disk.replay done = some (x.outcome w).2.disk ∧ (e.Fits (x.outcome w).2.disk ∨ excused (x.outcome w).2.disk e)) := by
  obtain ⟨es, hes, h⟩ := h
  refine ⟨es, hes, ?_⟩
  rcases hr : x.outcome w with ⟨e | a, w'⟩
  · rw [hr] at h
    exact h
  · rw [hr] at hx
    cases hx

/-- What is told may be told in less detail. -/
theorem Logs.mono {x : Pass σ α} {tells tells' : α → List Event → Prop} (h : x.Logs excused w tells)
    (ht : ∀ a es, tells a es → tells' a es) : x.Logs excused w tells' := by
  obtain ⟨es, hes, h⟩ := h
  refine ⟨es, hes, ?_⟩
  rcases hr : x.outcome w with ⟨e | a, v⟩
  · rw [hr] at h
    exact h
  · rw [hr] at h
    exact ⟨h.1, ht a es h.2⟩

/-- What does nothing announces nothing. -/
theorem logs_pure {a : α} {tells : α → List Event → Prop} (h : tells a []) : (pure a : Pass σ α).Logs excused w tells :=
  ⟨[], (List.append_nil _).symm, rfl, h⟩

/-- What would come after a failure does not. -/
theorem logs_throw_bind (e : Failure) (f : α → Pass σ β) {tells : β → List Event → Prop} :
    ((throw e : Pass σ α) >>= f).Logs excused w tells :=
  ⟨[], (List.append_nil _).symm, .inl rfl⟩

/-- What two steps announce leads from disk to disk. -/
theorem logs_bind {x : Pass σ α} {f : α → Pass σ β} {told : α → List Event → Prop} {tells : β → List Event → Prop}
    (hx : x.Logs excused w told)
    (hf : ∀ a v es, x.Yields w a v → told a es → (f a).Logs excused v fun b es' => tells b (es ++ es')) :
    (x >>= f).Logs excused w tells := by
  obtain ⟨es, hes, h⟩ := hx
  unfold Logs
  rw [outcome_bind]
  rcases hr : x.outcome w with ⟨e | a, v⟩
  · rw [hr] at hes h
    exact ⟨es, hes, h⟩
  · rw [hr] at hes h
    obtain ⟨es', hes', h'⟩ := hf a v es hr h.2
    have hreplay (es₁ : List Event) : w.disk.replay (es ++ es₁) = v.disk.replay es₁ := by
      rw [Disk.replay_append, h.1, Option.bind_some]
    refine ⟨es ++ es', by rw [hes', hes, List.append_assoc], ?_⟩
    dsimp only
    rcases hr' : (f a).outcome v with ⟨e | b, u⟩
    · rw [hr'] at h'
      rcases h' with h' | ⟨done, e, rfl, hdone, hlast⟩
      · exact .inl ((hreplay es').trans h')
      · exact .inr ⟨es ++ done, e, (List.append_assoc ..).symm, (hreplay done).trans hdone, hlast⟩
    · rw [hr'] at h'
      exact ⟨(hreplay es').trans h'.1, h'.2⟩

/-! ## Steps that change no file -/

/-- The disk and what was announced. -/
def recorded (w : Workspace σ) : Disk × List Event := (w.disk, w.events)

/-- Work changes neither the disk nor what was announced. -/
theorem isWork_recorded : IsWork (recorded : Workspace σ → Disk × List Event) where
  log := by
    intro w n h
    have hevents : ({ w with trace := w.trace ++ [n] } : Workspace σ).events = w.events := by
      rw [Workspace.events, List.filterMap_append, List.filterMap_cons_none h, List.filterMap_nil, List.append_nil]
      rfl
    exact congrArg (w.disk, ·) hevents
  mint := fun _ _ => rfl
  codebook := fun _ _ => rfl

/-- A step that changes no file and announces nothing leaves no gap in the record. -/
theorem logs_quiet {x : Pass σ α} {f : α → Pass σ β} {tells : β → List Event → Prop} (hx : x.Keeps recorded)
    (hf : ∀ a v, x.Yields w a v → v.disk = w.disk → (f a).Logs excused v tells) : (x >>= f).Logs excused w tells := by
  have hkept := hx w
  obtain ⟨hdisk, hevents⟩ := Prod.mk.inj hkept
  have hlogs : x.Logs excused w fun _ es => es = [] := by
    refine ⟨[], by rw [hevents, List.append_nil], ?_⟩
    rcases hr : x.outcome w with ⟨e | a, v⟩
    · rw [hr] at hdisk
      exact .inl (congrArg some hdisk.symm)
    · rw [hr] at hdisk
      exact ⟨congrArg some hdisk.symm, rfl⟩
  refine logs_bind hlogs fun a v es hv hes => ?_
  rw [hv] at hdisk
  rw [hes]
  exact hf a v hv hdisk

/-! ## Changes -/

/-- A change that is announced right before it is made. -/
theorem logs_announce (path : Path) {e : Event} {n : Notice} (hn : n.event? = none) {x : Pass σ Unit}
    (hx : ∀ v : Workspace σ, v.disk = w.disk → x.outcome v = match e.apply w.disk with
      | .error err => (.error (.file path err), v)
      | .ok disk => (.ok (), { v with disk }))
    (hfits : e.Fits w.disk ∨ (∃ err, e.apply w.disk = .error err) ∧ excused w.disk e)
    {a : α} {tells : α → List Event → Prop} (htells : tells a [e]) :
    (note (.change e) >>= fun _ => note n >>= fun _ => x >>= fun _ => pure a).Logs excused w tells := by
  have hevents : ({ w with trace := w.trace ++ [.change e] ++ [n] } : Workspace σ).events = w.events ++ [e] := by
    rw [Workspace.events, List.filterMap_append, List.filterMap_append, List.filterMap_cons_none hn, List.filterMap_nil,
      List.append_nil]
    rfl
  have houtcome : (note (.change e) >>= fun _ => note n >>= fun _ => x >>= fun _ => pure a).outcome w =
      (x >>= fun _ => pure a).outcome { w with trace := w.trace ++ [.change e] ++ [n] } := rfl
  unfold Logs
  rw [houtcome, outcome_bind, hx { w with trace := w.trace ++ [.change e] ++ [n] } rfl]
  refine ⟨[e], ?_⟩
  cases happly : e.apply w.disk with
  | error err =>
    refine ⟨hevents, .inr ⟨[], e, rfl, rfl, ?_⟩⟩
    exact hfits.imp_right And.right
  | ok d =>
    have hfits : e.Fits w.disk := by
      rcases hfits with hfits | ⟨⟨err, herr⟩, -⟩
      · exact hfits
      · rw [happly] at herr
        cases herr
    exact ⟨hevents, Disk.replay_singleton hfits happly, htells⟩

/-- A text is saved, or the disk refuses and stays as it is. -/
theorem outcome_save (path : Path) (t : Text) (charset : Charset) (v : Workspace σ) : (save path t charset).outcome v =
    match v.disk.write path (charset.encode t) with
    | .error err => (.error (.file path err), v)
    | .ok disk => (.ok (), { v with disk }) := by
  show Pass.outcome (match v.disk.write path (charset.encode t) with
    | .error e => throw (.file path e)
    | .ok disk => modify fun w => { w with disk }) v = _
  cases v.disk.write path (charset.encode t) <;> rfl

/-- A file is moved, or the disk refuses and stays as it is. -/
theorem outcome_move (old new : Path) (v : Workspace σ) : (move old new).outcome v =
    match v.disk.move old new with
    | .error err => (.error (.file old err), v)
    | .ok disk => (.ok (), { v with disk }) := by
  show Pass.outcome (match v.disk.move old new with
    | .error e => throw (.file old e)
    | .ok disk => modify fun w => { w with disk }) v = _
  cases v.disk.move old new <;> rfl

/-! ## Rewriting files -/

/-- A file that is rewritten is announced with the text that was read. -/
theorem logs_rewriteFile (hdry : o.dryRun = false) (path : Path) {r : Rewriter} (hr : r.OnlyLogs) :
    (rewriteFile o path r).Logs excused w fun changed es => Event.tally es = (if changed then 1 else 0, 0) := by
  refine logs_quiet (keeps_note isWork_recorded rfl) fun _ v₁ _ _ => ?_
  refine logs_quiet (keeps_load isWork_recorded _) fun q v₂ hload h₂ => ?_
  refine logs_quiet (keeps_noteAll isWork_recorded (hr _)) fun _ v₃ _ h₃ => ?_
  obtain ⟨bytes, hbytes, rfl, -⟩ := yields_load.1 hload
  rw [← h₂, ← h₃] at hbytes
  split
  · exact logs_pure rfl
  · next new _ =>
    rw [hdry, if_pos (show (!false) = true from rfl)]
    refine logs_announce path (e := .content path (Charset.decode bytes).1 new) rfl (fun v hv => ?_) (.inl ?_) rfl
    · rw [outcome_save, hv, Event.apply, hbytes]
      rfl
    · show v₃.disk.text? path = _
      rw [Disk.text?, hbytes]
      rfl

/-- Files that are rewritten are announced one by one, as many as are counted. -/
theorem logs_rewriteFiles (hdry : o.dryRun = false) {files : List (Path × Rewriter)} (hr : ∀ f ∈ files, f.2.OnlyLogs) :
    (rewriteFiles o files).Logs excused w fun n es => Event.tally es = (n, 0) := by
  induction files generalizing w with
  | nil => exact logs_pure rfl
  | cons f files ih =>
    refine logs_bind (logs_rewriteFile hdry f.1 (hr f List.mem_cons_self)) fun changed v es _ hes => ?_
    refine logs_bind (ih fun f' hf' => hr f' (List.mem_cons_of_mem _ hf')) fun n v' es' _ hes' => logs_pure ?_
    rw [List.append_nil, Event.tally_append, hes, hes']
    cases changed <;> simp [Nat.add_comm]

/-- Rewriting the text files below a directory is on record, and the changes are counted. -/
theorem logs_rewriteTexts (hdry : o.dryRun = false) (root : Path) (b : Codebook) {rewriter : Language → Rewriter}
    (hr : ∀ l, (rewriter l).OnlyLogs) {done : Tally → Notice} (hdone : ∀ t, (done t).event? = none) (renamed : Nat) :
    (rewriteTexts root o b rewriter done renamed).Logs excused w fun tally es =>
      Event.tally es = (tally.contentChanges, 0) ∧ tally.pathsRenamed = renamed := by
  unfold rewriteTexts
  split
  · exact logs_pure ⟨rfl, rfl⟩
  · refine logs_quiet (keeps_listTexts isWork_recorded _ _) fun files v _ _ => ?_
    refine logs_bind (logs_rewriteFiles hdry fun f hf => ?_) fun n v' es _ hes => ?_
    · obtain ⟨g, -, rfl⟩ := List.mem_map.1 hf
      exact hr g.2
    · refine logs_quiet (keeps_note isWork_recorded (hdone _)) fun _ _ _ _ => logs_pure ?_
      rw [List.append_nil]
      exact ⟨hes, rfl⟩

/-- The class pass is on record. -/
theorem logs_classPass [WordSource σ] (hdry : o.dryRun = false) (root : Path) : (ClassPass.run root o).Logs excused w fun tally es =>
    Event.tally es = (tally.contentChanges, tally.pathsRenamed) := by
  rw [classPass_eq]
  refine logs_quiet (keeps_nameClasses isWork_recorded _ _) fun _ _ _ _ => ?_
  refine logs_quiet keeps_get fun v _ _ _ => ?_
  refine logs_quiet (keeps_note isWork_recorded rfl) fun _ _ _ _ => ?_
  refine (logs_rewriteTexts hdry root _ (ClassPass.onlyLogs_rewriter _) (fun _ => rfl) 0).mono fun tally es h => ?_
  rw [h.1, h.2]

end Pass

end Pseudonym
