import Pseudonym.Proofs.Changes
import Pseudonym.Proofs.Classes

/-!
# What is read byte by byte is written byte by byte

A text that is read byte by byte is narrow: it has no character beyond U+00FF. The extension of an image may have one, and the token
for the image has the same extension; but the token gets into a text only where the name of the image stood, and if the text is
narrow, so was that name (`ImagePass.keepsNarrow_rewriter`). Class names and their tokens are ASCII words, which are narrow
(`ClassPass.keepsNarrow_rewriter`). A `Course` is what becomes of a disk while changes to it are announced, where a file that is not
UTF-8 has one byte for each character and a wider character could not be written at all. Every run takes such a course, whether it
succeeds or fails (`Project.run_bytewise`).
-/

namespace Pseudonym

variable {σ : Type}

/-! ## Narrow texts -/

/-- A text of characters up to U+00FF, each of which is the number of a byte. -/
def IsNarrow (t : Text) : Prop := ∀ c ∈ t, c.toNat < 256

namespace Charset

/-- The text of bytes that are read one by one. -/
def ofBytes (bytes : Bytes) : Text := bytes.map fun b => Char.ofNat b.toNat

/-- The bytes of a text, one for each character. -/
def toBytes (t : Text) : Bytes := t.map fun c => c.toNat.toUInt8

/-- What is read byte by byte is narrow. -/
theorem isNarrow_ofBytes (bytes : Bytes) : IsNarrow (ofBytes bytes) := by
  intro c hc
  obtain ⟨b, -, rfl⟩ := List.mem_map.1 hc
  rw [toNat_ofNat_toNat]
  exact b.toNat_lt

/-- A narrow text is written with one byte for each character. -/
theorem encode_of_isNarrow {t : Text} (h : IsNarrow t) : bytewise.encode t = toBytes t := by
  induction t with
  | nil => rfl
  | cons c t ih =>
    obtain ⟨hc, ht⟩ := List.forall_mem_cons.1 h
    rw [encode, List.flatMap_cons, byteOf_of_lt hc]
    exact congrArg _ (ih ht)

end Charset

/-- A text stays narrow with ASCII words in it exchanged. -/
theorem keptByWords_isNarrow : KeptByWords IsNarrow := fun _ _ hf h => Piece.toNat_exchange_lt hf h

/-- A file token is narrow if the name that it is made for is. -/
theorem IsFileToken.isNarrow {n p : Text} (h : IsFileToken (textExtension? n) p) (hn : IsNarrow n) : IsNarrow p := by
  refine h.forall_mem (fun c hc => ?_) hn
  have := Stylesheet.toNat_of_isIdentChar (Token.isIdentChar_of_mem_alphanumerics c hc)
  omega

/-- A rewriter that makes a narrow text of a narrow one. -/
def Rewriter.KeepsNarrow (r : Rewriter) : Prop := ∀ t new, IsNarrow t → r.rename t = some new → IsNarrow new

/-- To exchange class names for ASCII tokens keeps a text narrow. -/
theorem ClassPass.keepsNarrow_rewriter {b : Codebook} (hb : IsAsciiCodebook b) (l : Language) :
    (ClassPass.rewriter b l).KeepsNarrow :=
  fun _ _ ht h => keptByWords_isNarrow.rename hb ht h

/-- A name is exchanged where it stands in the text, so that it is narrow if the text is. -/
theorem ImagePass.keepsNarrow_rewriter {b : Codebook} (hb : ∀ e ∈ b.entries, IsFileToken (textExtension? e.1) e.2) :
    (ImagePass.rewriter b).KeepsNarrow := by
  intro t new ht hnew
  refine Substitution.inTurn_induction (fun e he s u hs hu => ?_) ht hnew
  obtain ⟨-, rfl⟩ := Piece.exchange?_eq_some_iff.1 hu
  rw [← Reference.join_pieces e.1 s] at hs
  refine Piece.forall_mem_exchange (fun n hn p hp hnarrow => ?_) hs
  obtain rfl := Reference.names_pieces e.1 s n hn
  obtain rfl := Option.some.inj hp
  exact (hb e he).isNarrow hnarrow

/-! ## The course of a disk -/

/-- The disk behind a change that was announced. In a dry run, and if the change is refused, it is the disk before. -/
def Options.behind (o : Options) (d : Disk) (changed : Except DiskError Disk) : Disk :=
  if o.dryRun then d else changed.toOption.getD d

/-- What becomes of a disk while changes are announced. The new text of a file that is UTF-8 is written in UTF-8. The new text of
another one is narrow, and written with one byte for each character. -/
inductive Course (o : Options) : Disk → List Event → Disk → Prop where
  | nil (d : Disk) : Course o d [] d
  | utf8 {path : Path} {bytes : Bytes} {old new : Text} {es : List Event} {d d' : Disk} :
      d.read path = .ok bytes → Utf8.decode? bytes = some old →
      Course o (o.behind d (d.write path (Utf8.encode new))) es d' → Course o d (.content path old new :: es) d'
  | bytewise {path : Path} {bytes : Bytes} {new : Text} {es : List Event} {d d' : Disk} :
      d.read path = .ok bytes → Utf8.decode? bytes = none → IsNarrow new →
      Course o (o.behind d (d.write path (Charset.toBytes new))) es d' →
      Course o d (.content path (Charset.ofBytes bytes) new :: es) d'
  | rename {old new : Path} {es : List Event} {d d' : Disk} :
      Course o (o.behind d (d.move old new)) es d' → Course o d (.rename old new :: es) d'

/-- A course goes on where another has ended. -/
theorem Course.trans {o : Options} {d d₁ d₂ : Disk} {es es' : List Event} (h : Course o d es d₁) (h' : Course o d₁ es' d₂) :
    Course o d (es ++ es') d₂ := by
  induction h with
  | nil d => exact h'
  | utf8 hread hdecode _ ih => exact .utf8 hread hdecode (ih h')
  | bytewise hread hdecode hnarrow _ ih => exact .bytewise hread hdecode hnarrow (ih h')
  | rename _ ih => exact .rename (ih h')

/-- What a rewriter makes of the text of a file is announced and written as on a course. -/
theorem Course.content {o : Options} {path : Path} {bytes : Bytes} {new : Text} {r : Rewriter} (hr : r.KeepsNarrow)
    {es : List Event} {d d' : Disk} (hread : d.read path = .ok bytes) (hnew : r.rename (Charset.decode bytes).1 = some new)
    (h : Course o (o.behind d (d.write path ((Charset.decode bytes).2.encode new))) es d') :
    Course o d (.content path (Charset.decode bytes).1 new :: es) d' := by
  unfold Charset.decode at hnew h ⊢
  cases hdecode : Utf8.decode? bytes with
  | some old =>
    rw [hdecode] at h
    exact .utf8 hread hdecode h
  | none =>
    rw [hdecode] at hnew h
    have hnarrow := hr _ new (Charset.isNarrow_ofBytes bytes) hnew
    rw [Charset.encode_of_isNarrow hnarrow] at h
    exact .bytewise hread hdecode hnarrow h

namespace Pass

variable {α β : Type} {o : Options} {w : Workspace σ}

/-- Whatever comes of a pass, what it announces and what it leaves on the disk is a course. -/
def OnCourse (o : Options) (x : Pass σ α) (w : Workspace σ) : Prop :=
  x.Leaves w fun _ disk events => ∃ es, events = w.events ++ es ∧ Course o w.disk es disk

/-- A step that touches neither the disk nor the events is on course. -/
theorem onCourse_of_keeps {x : Pass σ α} (hx : x.Keeps recorded) (w : Workspace σ) : x.OnCourse o w := by
  obtain ⟨hdisk, hevents⟩ := Prod.mk.inj (hx w)
  refine ⟨[], hevents.trans (List.append_nil _).symm, ?_⟩
  rw [hdisk]
  exact .nil _

/-- A step and what is done behind it are on course together. -/
theorem onCourse_bind {x : Pass σ α} {f : α → Pass σ β} (hx : x.OnCourse o w)
    (hf : ∀ a v, x.Yields w a v → (f a).OnCourse o v) : (x >>= f).OnCourse o w := by
  obtain ⟨es, hes, hcourse⟩ := hx
  refine leaves_bind (fun e v h => ?_) fun a v h => ?_
  · rw [h] at hes hcourse
    exact ⟨es, hes, hcourse⟩
  · rw [show x.outcome w = (.ok a, v) from h] at hes hcourse
    obtain ⟨es', hes', hcourse'⟩ := hf a v h
    exact ⟨es ++ es', by rw [hes', hes, List.append_assoc], hcourse.trans hcourse'⟩

/-- A step that changes no file and announces nothing. -/
theorem onCourse_quiet {x : Pass σ α} {f : α → Pass σ β} (hx : x.Keeps recorded)
    (hf : ∀ a v, x.Yields w a v → v.disk = w.disk → (f a).OnCourse o v) : (x >>= f).OnCourse o w :=
  onCourse_bind (onCourse_of_keeps hx w) fun a v h => hf a v h (Prod.mk.inj (hx.eq h)).1

/-- A change that is announced, and made unless the run is a dry one. -/
theorem onCourse_announce (path : Path) {e : Event} {n : Notice} (hn : n.event? = none) {x : Pass σ Unit}
    {changed : Except DiskError Disk} (hx : ∀ v : Workspace σ, v.disk = w.disk → x.outcome v = match changed with
      | .error err => (.error (.file path err), v)
      | .ok disk => (.ok (), { v with disk }))
    (hcourse : Course o w.disk [e] (o.behind w.disk changed)) {f : Unit → Pass σ α} (hf : ∀ v, (f ()).OnCourse o v) :
    (note (.change e) >>= fun _ => note n >>= fun _ => if !o.dryRun then x >>= f else f ()).OnCourse o w := by
  refine leaves_change fun v hdisk hevents => ?_
  refine leaves_quiet (keeps_note isWork_recorded hn) (fun err u h => by cases h) fun _ u _ hdisk' hevents' => ?_
  rw [hdisk] at hdisk'
  rw [hevents] at hevents'
  have hrest (u : Workspace σ) (hevents : u.events = w.events ++ [e]) (hcourse : Course o w.disk [e] u.disk) :
      (f ()).Leaves u fun _ disk events => ∃ es, events = w.events ++ es ∧ Course o w.disk es disk := by
    obtain ⟨es, hes, hrest⟩ := hf u
    exact ⟨e :: es, by rw [hes, hevents, List.append_assoc]; rfl, hcourse.trans hrest⟩
  unfold Options.behind at hcourse
  cases hdry : o.dryRun with
  | true =>
    rw [hdry, if_pos rfl] at hcourse
    exact hrest u hevents' (by rwa [hdisk'])
  | false =>
    rw [hdry, if_neg Bool.false_ne_true] at hcourse
    refine leaves_bind (fun err v h => ?_) fun _ v h => ?_
    · rw [hx u hdisk'] at h
      cases changed with
      | error err' =>
        cases h
        rw [hdisk']
        exact ⟨[e], hevents', hcourse⟩
      | ok disk => cases h
    · rw [Yields, hx u hdisk'] at h
      cases changed with
      | error err' => cases h
      | ok disk =>
        cases h
        exact hrest { u with disk } hevents' hcourse

/-! ## Rewriting files -/

/-- A file is read and announced, and what is written to it is narrow if what was read is. -/
theorem onCourse_rewriteFile (path : Path) {r : Rewriter} (hr : r.OnlyLogs) (hnarrow : r.KeepsNarrow) (w : Workspace σ) :
    (rewriteFile o path r).OnCourse o w := by
  refine onCourse_quiet (keeps_note isWork_recorded rfl) fun _ v₁ _ _ => ?_
  refine onCourse_quiet (keeps_load isWork_recorded _) fun q v₂ hload h₂ => ?_
  refine onCourse_quiet (keeps_noteAll isWork_recorded (hr _)) fun _ v₃ _ h₃ => ?_
  obtain ⟨bytes, hread, rfl, -⟩ := yields_load.1 hload
  rw [← h₂, ← h₃] at hread
  cases hnew : r.rename (Charset.decode bytes).1 with
  | none => exact onCourse_of_keeps (keeps_pure _) _
  | some new =>
    refine onCourse_announce path rfl (fun v hv => ?_) (.content hnarrow hread hnew (.nil _)) fun v => ?_
    · have houtcome := outcome_save path new (Charset.decode bytes).2 v
      rwa [hv] at houtcome
    · exact onCourse_of_keeps (keeps_pure _) _

/-- Files rewritten one after the other are on course. -/
theorem onCourse_rewriteFiles {files : List (Path × Rewriter)} (hfiles : ∀ f ∈ files, f.2.OnlyLogs ∧ f.2.KeepsNarrow)
    (w : Workspace σ) : (rewriteFiles o files).OnCourse o w := by
  induction files generalizing w with
  | nil => exact onCourse_of_keeps (keeps_pure _) _
  | cons f files ih =>
    rw [List.forall_mem_cons] at hfiles
    refine onCourse_bind (onCourse_rewriteFile f.1 hfiles.1.1 hfiles.1.2 w) fun _ v _ => ?_
    exact onCourse_bind (ih hfiles.2 v) fun _ _ _ => onCourse_of_keeps (keeps_pure _) _

/-- So are the text files below a directory. -/
theorem onCourse_rewriteTexts (root : Path) (b : Codebook) {rewriter : Language → Rewriter}
    (hr : ∀ l, (rewriter l).OnlyLogs ∧ (rewriter l).KeepsNarrow) {done : Tally → Notice} (hdone : ∀ t, (done t).event? = none)
    (renamed : Nat) (w : Workspace σ) : (rewriteTexts root o b rewriter done renamed).OnCourse o w := by
  unfold rewriteTexts
  split
  · exact onCourse_of_keeps (keeps_pure _) _
  · refine onCourse_quiet (keeps_listTexts isWork_recorded _ _) fun files v _ _ => ?_
    refine onCourse_bind (onCourse_rewriteFiles (fun f hf => ?_) v) fun _ v _ => ?_
    · obtain ⟨g, -, rfl⟩ := List.mem_map.1 hf
      exact hr g.2
    · exact onCourse_of_keeps (keeps_bind (keeps_note isWork_recorded (hdone _)) fun _ => keeps_pure _) v

/-! ## The two passes -/

variable [WordSource σ]

/-- The class pass, begun with an empty codebook, rewrites with ASCII words. -/
theorem onCourse_classPass (root : Path) (hempty : w.codebook = .empty) : (ClassPass.run root o).OnCourse o w := by
  rw [classPass_eq]
  refine onCourse_quiet (keeps_nameClasses isWork_recorded _ _) fun _ v hnamed _ => ?_
  obtain ⟨-, -, -, _, hassign⟩ := yields_nameClasses hnamed
  have hentered := (yields_assign hassign).1
  simp only [hempty] at hentered
  have hb : IsAsciiCodebook v.codebook :=
    (hentered.isClassNaming fun n hn => Mint.mem_taken_reserveAll.2 (.inl hn)).isAsciiCodebook
  refine onCourse_quiet keeps_get fun u _ hget _ => ?_
  obtain ⟨rfl, rfl⟩ := yields_get.1 hget
  refine onCourse_quiet (keeps_note isWork_recorded rfl) fun _ v' _ _ => ?_
  exact onCourse_rewriteTexts _ _ (fun l => ⟨ClassPass.onlyLogs_rewriter _ l, ClassPass.keepsNarrow_rewriter hb l⟩)
    (fun _ => rfl) _ _

/-- Images that are renamed one after the other are on course: nothing is written to them. -/
theorem onCourse_renameAll (paths : List Path) (w : Workspace σ) : (ImagePass.renameAll o paths).OnCourse o w := by
  induction paths generalizing w with
  | nil => exact onCourse_of_keeps (keeps_pure _) _
  | cons path paths ih =>
    unfold ImagePass.renameAll
    cases ImagePass.leaf? path with
    | none => exact onCourse_quiet (keeps_note isWork_recorded rfl) fun _ v _ _ => ih v
    | some name =>
      refine onCourse_quiet (keeps_pseudonym isWork_recorded (keeps_mint isWork_recorded _ _)) fun token v _ _ => ?_
      refine onCourse_announce path rfl (fun u hu => ?_) (.rename (.nil _)) fun u => ?_
      · have houtcome := outcome_move path (ImagePass.renamed path token) u
        rwa [hu] at houtcome
      · exact onCourse_bind (ih u) fun _ _ _ => onCourse_of_keeps (keeps_pure _) _

/-- The image pass, begun with an empty codebook, rewrites with tokens that have the extensions of the names. -/
theorem onCourse_imagePass (root : Path) (hempty : w.codebook = .empty) : (ImagePass.run root o).OnCourse o w := by
  rw [imagePass_eq]
  refine onCourse_quiet keeps_get fun u v hget _ => ?_
  obtain ⟨rfl, rfl⟩ := yields_get.1 hget
  split
  · exact onCourse_of_keeps (keeps_bind (keeps_note isWork_recorded rfl) fun _ => keeps_pure _) _
  · refine onCourse_quiet (keeps_note isWork_recorded rfl) fun _ v₁ hnote _ => ?_
    obtain rfl := yields_note.1 hnote
    refine onCourse_quiet (keeps_reserveNames isWork_recorded _) fun images v₂ hreserve _ => ?_
    obtain ⟨-, -, _, rfl⟩ := yields_reserveNames hreserve
    refine onCourse_bind (onCourse_renameAll images _) fun renamed v₃ hrename => ?_
    have hentered := (yields_renameAll hrename).1
    simp only [hempty] at hentered
    have hb : ∀ e ∈ v₃.codebook.entries, IsFileToken (textExtension? e.1) e.2 :=
      fun e he => (hentered.made e he).resolve_left List.not_mem_nil
    refine onCourse_quiet keeps_get fun _ _ hget _ => ?_
    obtain ⟨rfl, rfl⟩ := yields_get.1 hget
    exact onCourse_rewriteTexts _ _ (fun _ => ⟨ImagePass.onlyLogs_rewriter _, ImagePass.keepsNarrow_rewriter hb⟩)
      (fun _ => rfl) _ _

omit [WordSource σ] in
/-- A pass with a codebook of its own is on course if it is from there. -/
theorem onCourse_withFreshCodebook {x : Pass σ α} (hx : ∀ v : Workspace σ, v.codebook = .empty → x.OnCourse o v)
    (w : Workspace σ) : (Project.withFreshCodebook x).OnCourse o w := by
  refine onCourse_quiet (keeps_modify fun w => isWork_recorded.codebook w _) fun _ v hfresh _ => ?_
  obtain rfl := yields_modify.1 hfresh
  refine onCourse_bind (hx _ rfl) fun _ v _ => ?_
  exact onCourse_of_keeps (keeps_bind keeps_get fun _ => keeps_pure _) v

end Pass

namespace Project

open Pass

variable [WordSource σ]

/-- No character beyond U+00FF gets into a file that is read byte by byte, even if the extensions of images hold such characters.
Whatever the project, and whether a run over it succeeds or fails, what the run announces and what it makes of the disk is a
course, on which such a file is written with one byte for each character; the form that `Charset.byteOf` has for a wider one is
never used. -/
theorem run_bytewise (root : Path) (o : Options) (w : Workspace σ) : ∃ es,
    ((run root o).outcome w).2.events = w.events ++ es ∧ Course o w.disk es ((run root o).outcome w).2.disk := by
  show (run root o).OnCourse o w
  unfold run
  refine onCourse_quiet keeps_get fun u v hget _ => ?_
  obtain ⟨rfl, rfl⟩ := yields_get.1 hget
  split
  · exact onCourse_of_keeps (keeps_throw_bind _ _) _
  · refine onCourse_quiet (keeps_note isWork_recorded rfl) fun _ v₁ _ _ => ?_
    refine onCourse_quiet (keeps_reserveNames isWork_recorded _) fun _ v₂ _ _ => ?_
    refine onCourse_bind (onCourse_withFreshCodebook (fun v => onCourse_classPass root) v₂) fun _ v₃ _ => ?_
    refine onCourse_bind (onCourse_withFreshCodebook (fun v => onCourse_imagePass root) v₃) fun _ v₄ _ => ?_
    exact onCourse_of_keeps (keeps_bind (keeps_note isWork_recorded rfl) fun _ => keeps_pure _) v₄

namespace AccentedWitness

open SiteWitness (bytes root)

/-- A site with a stylesheet that is not UTF-8 and two images with extensions that are not ASCII. The stylesheet refers to the first
one with one byte for the accented letter. The name of the second one stands there in UTF-8, three bytes for its last character. -/
def site : Workspace WordCycle where
  disk := { entries := [
    ([bytes "site"], .directory),
    ([bytes "site", bytes "a.css"], .file (bytes ".b\x7b\x7d url(c." ++ [0xE9] ++ bytes ") url(d.図)")),
    ([bytes "site", bytes "img"], .directory),
    ([bytes "site", bytes "img", bytes "c.é"], .file []),
    ([bytes "site", bytes "img", bytes "d.図"], .file [])] }
  mint := { source := { words := [0x0123456789ABCDEF, 0xFEDCBA9876543210, 0x0F1E2D3C4B5A6978] } }

def sheet : Path := root.join (bytes "a.css")

/-- The path of an image of the site. -/
def image (name : String) : Path := (root.join (bytes "img")).join (bytes name)

/-- What the name of the second image is to a reader of single bytes. -/
def unread : Text := Charset.ofBytes (bytes "d.図")

def events : List Event := [
  .content sheet (".b\x7b\x7d url(c.é) url(".toList ++ unread ++ [')'])
    (".aZ30Z30Z\x7b\x7d url(c.é) url(".toList ++ unread ++ [')']),
  .rename (image "c.é") (image "30Z30Z30Z3.é"),
  .rename (image "d.図") (image "0Z30Z30Z30.図"),
  .content sheet (".aZ30Z30Z\x7b\x7d url(c.é) url(".toList ++ unread ++ [')'])
    (".aZ30Z30Z\x7b\x7d url(30Z30Z30Z3.é) url(".toList ++ unread ++ [')'])]

end AccentedWitness

open AccentedWitness in
open SiteWitness (bytes root) in
/-- A stylesheet in Latin-1 with a reference to an image whose ending is accented, and to one whose name no byte can stand for. -/
theorem run_bytewise_accented : Course {} site.disk events ((run root {}).outcome site).2.disk ∧
    ((run root {}).outcome site).2.disk.read sheet =
      .ok (bytes ".aZ30Z30Z\x7b\x7d url(30Z30Z30Z3." ++ [0xE9] ++ bytes ") url(d.図)") := by
  have hevents : ((run root {}).outcome site).2.events = events := by decide +kernel
  obtain ⟨es, hes, hcourse⟩ := run_bytewise root {} site
  obtain rfl : events = es := hevents.symm.trans hes
  exact ⟨hcourse, by decide +kernel⟩

end Project

end Pseudonym
