import Pseudonym.Proofs.DryRuns
import Pseudonym.Proofs.Replays
import Pseudonym.Proofs.Weights

/-!
# Only texts that change are announced

A rewriter has an answer as soon as it has exchanged a name, without looking whether the text is another one. It is, since every
exchange makes a text heavier, as long as no pseudonym is a name (`Rewriter.IsOf.alters`). So a file is announced, written and counted
exactly if its text changes (`Pass.changes_rewriteFiles`).
-/

namespace Pseudonym

variable {σ : Type}

/-! ## Rewriters -/

namespace Rewriter

/-- A rewriter that answers only with another text. -/
def Alters (r : Rewriter) : Prop := ∀ t out, r.rename t = some out → out ≠ t

/-- The rewriters of a project with a codebook of class names and one of file names. -/
inductive IsOf (classes images : Codebook) : Rewriter → Prop where
  | classes (l : Language) : IsOf classes images (ClassPass.rewriter classes l)
  | images : IsOf classes images (ImagePass.rewriter images)

variable {classes images : Codebook} {r : Rewriter}

/-- A rewriter of the passes alters each text that it gives a new one for. -/
theorem IsOf.alters (hclasses : classes.IsFresh fun n => ∀ c ∈ n, isIdentChar c = true)
    (himages : images.IsFresh fun n => n ≠ [] → Reference.IsFileName n) (h : r.IsOf classes images) : r.Alters := by
  rintro t out hout rfl
  cases h with
  | classes l => exact lt_irrefl _ (Language.classWeight_lt hclasses hout)
  | images => exact lt_irrefl _ (Reference.rename_fileWeight_lt himages hout)

/-- A rewriter of the passes announces nothing itself. -/
theorem IsOf.onlyLogs (h : r.IsOf classes images) : r.OnlyLogs := by
  cases h with
  | classes l => exact ClassPass.onlyLogs_rewriter classes l
  | images => exact ImagePass.onlyLogs_rewriter images

/-- The change of a file whose text is to be another one. -/
def change? (r : Rewriter) (d : Disk) (path : Path) : Option Event :=
  (d.text? path).bind fun old =>
    if (r.rename old).getD old = old then none else some (.content path old ((r.rename old).getD old))

/-- The change of a file that can be read is that of its text. -/
theorem change?_of_rename {d : Disk} {path : Path} {bytes : Bytes} (hr : r.Alters) (hread : d.read path = .ok bytes) :
    r.change? d path = (r.rename (Charset.decode bytes).1).map (.content path (Charset.decode bytes).1) := by
  have htext : d.text? path = some (Charset.decode bytes).1 := by
    rw [Disk.text?, hread]
    rfl
  rw [change?, htext, Option.bind_some]
  cases hrename : r.rename (Charset.decode bytes).1 with
  | none => exact if_pos rfl
  | some new => exact if_neg (hr _ new hrename)

/-- What cannot be read is not changed. -/
theorem change?_of_error {d : Disk} {path : Path} {e : DiskError} (hread : d.read path = .error e) : r.change? d path = none := by
  rw [change?, Disk.text?, hread]
  rfl

/-- A change that is announced is one. -/
theorem exists_of_change? {d : Disk} {path : Path} {e : Event} (h : r.change? d path = some e) :
    ∃ old new, e = .content path old new ∧ d.text? path = some old ∧ r.rename old = some new ∧ new ≠ old := by
  obtain ⟨old, hold, h⟩ := Option.bind_eq_some_iff.1 h
  obtain ⟨hne, he⟩ := Option.ite_none_left_eq_some.1 h
  cases hrename : r.rename old with
  | none => simp [hrename] at hne
  | some new =>
    rw [hrename, Option.getD_some] at hne he
    exact ⟨old, new, (Option.some.inj he).symm, hold, hrename, hne⟩

/-- The change of a file depends on what is read from it. -/
theorem change?_congr {d d' : Disk} {path : Path} (h : d'.read path = d.read path) : r.change? d' path = r.change? d path := by
  rw [change?, change?, Disk.text?, Disk.text?, h]

end Rewriter

/-- In a dry run nothing is written. -/
theorem Rewriter.Writes.eq_of_dry {o : Options} (ho : o.dryRun = true) {path : Path} {r : Rewriter} {d d' : Disk}
    (h : r.Writes o path d d') : d' = d := by
  obtain ⟨_, -, ⟨-, hd⟩ | ⟨_, -, hd⟩⟩ := h
  · exact hd
  · rwa [ho, if_pos rfl] at hd

/-- Files that are rewritten one after the other, and the changes of their texts: each file is judged as it is read when its turn
comes. -/
inductive Changes (o : Options) : List (Path × Rewriter) → Disk → List Event → Disk → Prop where
  | nil (d : Disk) : Changes o [] d [] d
  | cons {path : Path} {r : Rewriter} {files : List (Path × Rewriter)} {d d₁ d₂ : Disk} {es : List Event} :
      r.Writes o path d d₁ → Changes o files d₁ es d₂ → Changes o ((path, r) :: files) d ((r.change? d path).toList ++ es) d₂

/-- Files that stand apart are judged by the disk that is found at first. -/
theorem Changes.eq_filterMap {o : Options} {files : List (Path × Rewriter)} {d d' : Disk} {es : List Event}
    (h : Changes o files d es d')
    (hapart : o.dryRun = true ∨ d.Distinct ∧ files.Pairwise fun f g => d.Apart f.1 g.1) :
    es = files.filterMap fun f => f.2.change? d f.1 := by
  induction h with
  | nil d => rfl
  | @cons path r files d d₁ d₂ es hwrites hchanges ih =>
    have hsame : (∀ f ∈ files, f.2.change? d₁ f.1 = f.2.change? d f.1) ∧
        (o.dryRun = true ∨ d₁.Distinct ∧ files.Pairwise fun f g => d₁.Apart f.1 g.1) := by
      cases ho : o.dryRun with
      | true =>
        rw [hwrites.eq_of_dry ho]
        exact ⟨fun _ _ => rfl, .inl rfl⟩
      | false =>
        obtain ⟨hd, hpairwise⟩ := hapart.resolve_left (by simp [ho])
        obtain ⟨hfirst, hrest⟩ := List.pairwise_cons.1 hpairwise
        have hbare := hwrites.bare hd
        refine ⟨fun f hf => f.2.change?_congr (hwrites.read_of_apart ho hd (hfirst f hf)), .inr ⟨hd.of_bare hbare, ?_⟩⟩
        exact hrest.imp fun hfg => hfg.of_bare hbare
    rw [ih hsame.2, List.filterMap_congr hsame.1, List.filterMap_cons]
    cases r.change? d path <;> rfl

/-- A file is given another text by its rewriter. -/
def IsChangeIn (files : List (Path × Rewriter)) (e : Event) : Prop :=
  ∃ f ∈ files, ∃ old new, e = .content f.1 old new ∧ f.2.rename old = some new ∧ new ≠ old

namespace Pass

variable {α β : Type} {o : Options} {w : Workspace σ} {r : Rewriter}

/-! ## What is left behind -/

/-- Whatever comes of a pass, `P` holds of its value or failure, of the disk that it leaves and of all that has been announced. -/
def Leaves (x : Pass σ α) (w : Workspace σ) (P : Except Failure α → Disk → List Event → Prop) : Prop :=
  P (x.outcome w).1 (x.outcome w).2.disk (x.outcome w).2.events

/-- What a step leaves when it fails, and what is left behind it when it does not. -/
theorem leaves_bind {x : Pass σ α} {f : α → Pass σ β} {P : Except Failure β → Disk → List Event → Prop}
    (hfail : ∀ e v, x.outcome w = (.error e, v) → P (.error e) v.disk v.events)
    (hf : ∀ a v, x.Yields w a v → (f a).Leaves v P) : (x >>= f).Leaves w P := by
  unfold Leaves
  rw [outcome_bind]
  rcases hr : x.outcome w with ⟨e | a, v⟩
  · exact hfail e v hr
  · exact hf a v hr

/-- A pass goes on from a step that neither changes a file nor announces anything, or it fails there. -/
theorem leaves_quiet {x : Pass σ α} {f : α → Pass σ β} {P : Except Failure β → Disk → List Event → Prop} (hx : x.Keeps recorded)
    (hfail : ∀ e v, x.outcome w = (.error e, v) → P (.error e) w.disk w.events)
    (hf : ∀ a v, x.Yields w a v → v.disk = w.disk → v.events = w.events → (f a).Leaves v P) : (x >>= f).Leaves w P := by
  refine leaves_bind (fun e v h => ?_) fun a v h => ?_
  · obtain ⟨hdisk, hevents⟩ := Prod.mk.inj (hx w)
    rw [h] at hdisk hevents
    rw [hdisk, hevents]
    exact hfail e v h
  · obtain ⟨hdisk, hevents⟩ := Prod.mk.inj (hx.eq h)
    exact hf a v h hdisk hevents

/-- What is made of the value in the end changes neither the disk nor the record. -/
theorem leaves_bind_pure {x : Pass σ α} {f : α → β} {P : Disk → List Event → Prop} (h : x.Leaves w fun _ => P) :
    (x >>= fun a => pure (f a)).Leaves w fun _ => P := by
  unfold Leaves at h
  refine leaves_bind (fun e v hx => ?_) fun a v hx => ?_
  · rwa [hx] at h
  · rwa [show x.outcome w = (.ok a, v) from hx] at h

/-- A pass goes on from a change that is announced. -/
theorem leaves_change {e : Event} {f : Unit → Pass σ β} {P : Except Failure β → Disk → List Event → Prop}
    (hf : ∀ v : Workspace σ, v.disk = w.disk → v.events = w.events ++ [e] → (f ()).Leaves v P) :
    (note (.change e) >>= f).Leaves w P :=
  hf { w with trace := w.trace ++ [.change e] } rfl List.filterMap_append

/-- Writing to a file announces nothing. -/
theorem leaves_save {path : Path} {t : Text} {charset : Charset} {f : Unit → Pass σ β}
    {P : Except Failure β → Disk → List Event → Prop} (hfail : ∀ e, P (.error e) w.disk w.events)
    (hf : ∀ v : Workspace σ, v.events = w.events → (f ()).Leaves v P) : (save path t charset >>= f).Leaves w P := by
  unfold Leaves
  rw [outcome_bind, outcome_save]
  cases w.disk.write path (charset.encode t) with
  | error e => exact hfail _
  | ok disk => exact hf { w with disk } rfl

/-! ## One file -/

/-- A file is announced if its text changes. If it does not, the file stays as it is, and nothing can fail once it has been read. -/
theorem leaves_rewriteFile (ha : r.Alters) (hr : r.OnlyLogs) (o : Options) (path : Path) (w : Workspace σ) :
    (rewriteFile o path r).Leaves w fun result disk events => events = w.events ++ (r.change? w.disk path).toList ∧
      (r.change? w.disk path = none → disk = w.disk ∧ ∀ bytes, w.disk.read path = .ok bytes → result = .ok false) ∧
      ∀ changed, result = .ok changed → changed = (r.change? w.disk path).isSome := by
  refine leaves_quiet (keeps_note isWork_recorded rfl) (fun e v h => by cases h) fun _ v₁ _ hdisk₁ hevents₁ => ?_
  refine leaves_quiet (keeps_load isWork_recorded _) (fun e v hfail => ?_) fun q v₂ hload hdisk₂ hevents₂ => ?_
  · cases hread : w.disk.read path with
    | error e' =>
      rw [Rewriter.change?_of_error hread]
      exact ⟨hevents₁.trans (List.append_nil _).symm, fun _ => ⟨hdisk₁, nofun⟩, nofun⟩
    | ok bytes =>
      rw [← hdisk₁] at hread
      have hloads : (load path).outcome v₁ = _ := yields_load.2 ⟨bytes, hread, rfl, rfl⟩
      rw [hloads] at hfail
      cases hfail
  obtain ⟨bytes, hread, hq, -⟩ := yields_load.1 hload
  obtain ⟨old, charset⟩ := q
  rw [hdisk₁] at hread
  refine leaves_quiet (keeps_noteAll isWork_recorded (hr _)) (fun e v h => by cases h) fun _ v₃ _ hdisk₃ hevents₃ => ?_
  have hdisk : v₃.disk = w.disk := hdisk₃.trans (hdisk₂.trans hdisk₁)
  have hevents : v₃.events = w.events := hevents₃.trans (hevents₂.trans hevents₁)
  rw [Rewriter.change?_of_rename ha hread, ← hq]
  cases r.rename old with
  | none => exact ⟨hevents.trans (List.append_nil _).symm, fun _ => ⟨hdisk, fun _ _ => rfl⟩, fun _ h => (Except.ok.inj h).symm⟩
  | some new =>
    refine leaves_change fun v₄ _ hevents₄ => ?_
    refine leaves_quiet (keeps_note isWork_recorded rfl) (fun e v h => by cases h) fun _ v₅ _ _ hevents₅ => ?_
    have hannounced : v₅.events = w.events ++ [.content path old new] := by rw [hevents₅, hevents₄, hevents]
    split
    · refine leaves_save (fun e => ⟨hannounced, nofun, nofun⟩) fun v₆ hevents₆ => ?_
      exact ⟨hevents₆.trans hannounced, nofun, fun _ h => (Except.ok.inj h).symm⟩
    · exact ⟨hannounced, nofun, fun _ h => (Except.ok.inj h).symm⟩

/-! ## All files -/

/-- Whatever comes of it, a file is announced only with another text, and with no announcement nothing is written. -/
theorem leaves_rewriteFiles {files : List (Path × Rewriter)} (hfiles : ∀ f ∈ files, f.2.Alters ∧ f.2.OnlyLogs) (o : Options)
    (w : Workspace σ) : (rewriteFiles o files).Leaves w fun _ disk events => ∃ es, events = w.events ++ es ∧
      (es = [] → disk = w.disk) ∧ ∀ e ∈ es, IsChangeIn files e := by
  induction files generalizing w with
  | nil => exact ⟨[], (List.append_nil _).symm, fun _ => rfl, nofun⟩
  | cons f files ih =>
    rw [List.forall_mem_cons] at hfiles
    obtain ⟨path, r⟩ := f
    obtain ⟨hevents, hsame, -⟩ := leaves_rewriteFile hfiles.1.1 hfiles.1.2 o path w
    have hfirst : ∀ e ∈ (r.change? w.disk path).toList, IsChangeIn ((path, r) :: files) e := by
      intro e he
      obtain ⟨old, new, rfl, -, hnew, hne⟩ := r.exists_of_change? (Option.mem_toList.1 he)
      exact ⟨_, List.mem_cons_self, old, new, rfl, hnew, hne⟩
    refine leaves_bind (fun e v hfail => ?_) fun changed v hfile => leaves_bind_pure ?_
    · rw [hfail] at hevents hsame
      exact ⟨_, hevents, fun hnone => (hsame (by simpa using hnone)).1, hfirst⟩
    · rw [show (rewriteFile o path r).outcome w = _ from hfile] at hevents hsame
      obtain ⟨es, hevents', hsame', hrest⟩ := ih hfiles.2 v
      refine ⟨(r.change? w.disk path).toList ++ es, by rw [hevents', hevents, List.append_assoc], fun hnone => ?_, fun e he => ?_⟩
      · obtain ⟨hfirst, rfl⟩ := List.append_eq_nil_iff.1 hnone
        exact (hsame' rfl).trans (hsame (by simpa using hfirst)).1
      · rcases List.mem_append.1 he with he | he
        · exact hfirst e he
        · obtain ⟨f, hf, hchange⟩ := hrest e he
          exact ⟨f, List.mem_cons_of_mem _ hf, hchange⟩

/-- The files are counted whose texts change. -/
theorem changes_rewriteFiles {files : List (Path × Rewriter)} (hfiles : ∀ f ∈ files, f.2.Alters ∧ f.2.OnlyLogs) {n : Nat}
    {w' : Workspace σ} (h : (rewriteFiles o files).Yields w n w') :
    ∃ es, Changes o files w.disk es w'.disk ∧ w'.events = w.events ++ es ∧ n = es.length := by
  induction files generalizing w n with
  | nil =>
    obtain ⟨rfl, rfl⟩ := yields_pure.1 h
    exact ⟨[], .nil _, (List.append_nil _).symm, rfl⟩
  | cons f files ih =>
    rw [List.forall_mem_cons] at hfiles
    obtain ⟨path, r⟩ := f
    simp only [rewriteFiles, yields_bind, yields_pure] at h
    obtain ⟨changed, v, hfile, m, _, hrest, rfl, rfl⟩ := h
    obtain ⟨hevents, -, hcounted⟩ := leaves_rewriteFile hfiles.1.1 hfiles.1.2 o path w
    rw [show (rewriteFile o path r).outcome w = _ from hfile] at hevents hcounted
    obtain ⟨es, hchanges, hevents', rfl⟩ := ih hfiles.2 hrest
    refine ⟨_, .cons (yields_rewriteFile hfile).1 hchanges, by rw [hevents', hevents, List.append_assoc], ?_⟩
    rw [hcounted changed rfl, List.length_append]
    cases r.change? w.disk path <;> simp [Nat.add_comm]

/-- The rewriters answer only with another text, when no pseudonym is a name. So a file is announced exactly if its text changes;
if it does not, nothing is written and nothing fails but the reading. And the files that are counted are those whose texts
change. -/
theorem rewriting_announces_changes {classes images : Codebook} (hclasses : classes.IsFresh fun n => ∀ c ∈ n, isIdentChar c = true)
    (himages : images.IsFresh fun n => n ≠ [] → Reference.IsFileName n) :
    (∀ r, Rewriter.IsOf classes images r → ∀ t out, r.rename t = some out → out ≠ t) ∧
    (∀ r, Rewriter.IsOf classes images r → ∀ (o : Options) (path : Path) (w : Workspace σ),
      (rewriteFile o path r).Leaves w fun result disk events => events = w.events ++ (r.change? w.disk path).toList ∧
        (r.change? w.disk path = none → disk = w.disk ∧ ∀ bytes, w.disk.read path = .ok bytes → result = .ok false) ∧
        ∀ changed, result = .ok changed → changed = (r.change? w.disk path).isSome) ∧
    ∀ (o : Options) (files : List (Path × Rewriter)), (∀ f ∈ files, f.2.IsOf classes images) → ∀ w : Workspace σ,
      ((rewriteFiles o files).Leaves w fun _ disk events => ∃ es, events = w.events ++ es ∧ (es = [] → disk = w.disk) ∧
        ∀ e ∈ es, IsChangeIn files e) ∧
      ∀ n w', (rewriteFiles o files).Yields w n w' → ∃ es, Changes o files w.disk es w'.disk ∧ w'.events = w.events ++ es ∧
        n = es.length ∧ ((o.dryRun = true ∨ w.disk.Distinct ∧ files.Pairwise fun f g => w.disk.Apart f.1 g.1) →
          es = files.filterMap fun f => f.2.change? w.disk f.1) := by
  have hrewriter {r : Rewriter} (h : r.IsOf classes images) : r.Alters ∧ r.OnlyLogs := ⟨h.alters hclasses himages, h.onlyLogs⟩
  refine ⟨fun r h => (hrewriter h).1, fun r h o path w => leaves_rewriteFile (hrewriter h).1 (hrewriter h).2 o path w, ?_⟩
  intro o files hfiles w
  have hfiles : ∀ f ∈ files, f.2.Alters ∧ f.2.OnlyLogs := fun f hf => hrewriter (hfiles f hf)
  refine ⟨leaves_rewriteFiles hfiles o w, fun n w' h => ?_⟩
  obtain ⟨es, hchanges, hevents, hn⟩ := changes_rewriteFiles hfiles h
  exact ⟨es, hchanges, hevents, hn, hchanges.eq_filterMap⟩

namespace ShorterWitness

open SiteWitness (bytes)

/-- Class names with pseudonyms that are shorter, one of them empty. -/
def classes : Codebook := ⟨[("ab".toList, "a".toList), ("b".toList, [])]⟩

/-- An image whose pseudonym holds a space. -/
def images : Codebook := ⟨[("a.png".toList, "a b".toList)]⟩

/-- A script with a literal of each name, a sheet that styles neither, and one with a reference. -/
def site : Workspace WordCycle where
  disk := { entries := [
    ([bytes "a.js"], .file (bytes "'ab''b'b'")),
    ([bytes "b.css"], .file (bytes ".a\x7b\x7d .abb \x7b\x7d")),
    ([bytes "c.css"], .file (bytes "url(a.png), a.png.bak"))] }
  mint := { source := { words := [0], left := [] } }

def path (name : String) : Path := .ofText ("/" ++ name).toList

def files : List (Path × Rewriter) := [(path "a.js", ClassPass.rewriter classes .script),
  (path "b.css", ClassPass.rewriter classes .stylesheet), (path "c.css", ImagePass.rewriter images)]

end ShorterWitness

open ShorterWitness in
/-- Names that shrink: what one exchange takes away and another adds cannot cancel out. -/
theorem rewriting_announces_changes_shorter : (classes.IsFresh fun n => ∀ c ∈ n, isIdentChar c = true) ∧
    (images.IsFresh fun n => n ≠ [] → Reference.IsFileName n) ∧
    (∃ w', (rewriteFiles {} files).Yields site 2 w') ∧
    ∃ w', (rewriteFiles (Options.dry {}) files).Yields site 2 w' ∧
      w'.events = [.content (path "a.js") "'ab''b'b'".toList "'a'''b'".toList,
        .content (path "c.css") "url(a.png), a.png.bak".toList "url(a b), a.png.bak".toList] := by
  have hident : classes.names.all (·.all isIdentChar) = true := by decide
  have hclasses : classes.IsFresh fun n => ∀ c ∈ n, isIdentChar c = true :=
    ⟨fun n hn => List.all_eq_true.1 (List.all_eq_true.1 hident n hn), by decide⟩
  have himages : images.IsFresh fun n => n ≠ [] → Reference.IsFileName n := ⟨by decide, by decide⟩
  have hfiles : ∀ f ∈ files, f.2.IsOf classes images := by
    intro f hf
    simp only [files, List.mem_cons, List.not_mem_nil, or_false] at hf
    rcases hf with rfl | rfl | rfl
    · exact .classes _
    · exact .classes _
    · exact .images
  have hrun : (rewriteFiles {} files).Yields site 2 ((rewriteFiles {} files).outcome site).2 := yields_of_toOption (by decide +kernel)
  have hdry : (rewriteFiles (Options.dry {}) files).Yields site 2 ((rewriteFiles (Options.dry {}) files).outcome site).2 :=
    yields_of_toOption (by decide +kernel)
  obtain ⟨-, -, hall⟩ := rewriting_announces_changes (σ := WordCycle) hclasses himages
  obtain ⟨es, -, hevents, -, hes⟩ := (hall (Options.dry {}) files hfiles site).2 2 _ hdry
  refine ⟨hclasses, himages, ⟨_, hrun⟩, _, hdry, ?_⟩
  rw [hevents, hes (.inl rfl)]
  decide +kernel

end Pass

end Pseudonym
