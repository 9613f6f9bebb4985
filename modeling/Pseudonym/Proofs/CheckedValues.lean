import Pseudonym.CommandLine.Settings

/-!
# What has been checked of the arguments

An argument is settled only with values that pass its check, and with a value where one is needed (`Command.Accepts`), and no
step of the reading settles it otherwise (`Progress.Checked`). So what a command without subcommands finds can be relied on
(`accepts_of_readFrom`), and the length of class tokens is at least one (`Settings.one_le_classLength`).
-/

namespace Pseudonym.CommandLine

/-- When two steps end well, so does the first. -/
theorem exists_of_bind_eq_ok {ε α β : Type} {x : Except ε α} {f : α → Except ε β} {b : β} (h : x >>= f = .ok b) :
    ∃ a, x = .ok a ∧ f a = .ok b := by
  cases x with
  | error e => cases h
  | ok a => exact ⟨a, rfl, h⟩

/-- An argument that may be found, with its values: each of them passes the argument's check, and there is one where one is
needed. -/
structure Command.Accepts (c : Command) (slot : Slot) (values : List Bytes) : Prop where
  given : c.takesValue slot = true → values ≠ []
  checked : ∀ v ∈ values, c.checkOf slot v = .ok ()

/-- Values without a fault have passed their check. -/
theorem Command.checkOf_eq_ok_of_faultOf? {c : Command} {slot : Slot} {values : List Bytes}
    (h : c.faultOf? slot values = none) : ∀ v ∈ values, c.checkOf slot v = .ok () := by
  induction values with
  | nil => exact fun _ hv => absurd hv List.not_mem_nil
  | cons v vs ih =>
    rw [faultOf?] at h
    split at h
    · next hv => exact List.forall_mem_cons.2 ⟨hv, ih h⟩
    · cases h

/-- Values without an objection are accepted. -/
theorem Command.accepts_of_objection? {c : Command} {before : List (Slot × List Bytes)} {slot : Slot} {values : List Bytes}
    (h : c.objection? before slot values = none) : c.Accepts slot values := by
  unfold objection? at h
  split at h
  · cases h
  · next hgiven =>
    split at h
    · cases h
    · refine ⟨fun htakes hnil => hgiven ?_, checkOf_eq_ok_of_faultOf? h⟩
      rw [htakes, hnil]
      rfl

namespace Progress

/-- Everything that was settled may be found. -/
def Checked (c : Command) (p : Progress) : Prop := ∀ f ∈ p.settled, c.Accepts f.1 f.2

variable {c : Command} {p q : Progress}

/-- To settle a slot lets nothing in that is not accepted. -/
theorem Checked.settle (hp : p.Checked c) {slot : Slot} {values : List Bytes} (h : p.settle c slot values = .ok q) :
    q.Checked c := by
  unfold Progress.settle at h
  split at h
  · cases h
  · next hnone =>
    cases h
    intro f hf
    rcases List.mem_append.1 hf with hf | hf
    · exact hp f hf
    · obtain rfl := List.mem_singleton.1 hf
      exact Command.accepts_of_objection? hnone

/-- To resolve what is pending lets nothing in that is not accepted. -/
theorem Checked.resolve (hp : p.Checked c) (h : p.resolve c = .ok q) : q.Checked c := by
  unfold Progress.resolve at h
  split at h
  · cases h
    exact hp
  · have hp' : Checked c { p with pending := none, awaiting := false } := hp
    exact hp'.settle h

/-- A step that first resolves what is pending goes on from something checked. -/
theorem Checked.exists_resolved (hp : p.Checked c) {f : Progress → Except Refusal Progress}
    (h : p.resolve c >>= f = .ok q) : ∃ p', p'.Checked c ∧ f p' = .ok q := by
  obtain ⟨p', hp', h⟩ := exists_of_bind_eq_ok h
  exact ⟨p', hp.resolve hp', h⟩

/-- A flag lets nothing in that is not accepted. -/
theorem Checked.takeFlag (hp : p.Checked c) {s : Switch} {long : Bool} (h : takeFlag c p s long = .ok q) : q.Checked c := by
  obtain ⟨p', hp, h⟩ := hp.exists_resolved h
  split at h
  · cases h
  · cases h
  · exact hp.settle h

/-- A long option lets nothing in that is not accepted. -/
theorem Checked.takeLong (hp : p.Checked c) {s : Switch} {attached : Option Bytes} (h : takeLong c p s attached = .ok q) :
    q.Checked c := by
  unfold CommandLine.takeLong at h
  split at h
  · obtain ⟨p', hp, h⟩ := hp.exists_resolved h
    exact hp.settle h
  · obtain ⟨p', hp, h⟩ := hp.exists_resolved h
    cases h
    exact hp
  · cases h
  · exact hp.takeFlag h

/-- Short options let nothing in that is not accepted. -/
theorem Checked.takeLetters (hp : p.Checked c) {us : List Utf8.Chunk} (h : takeLetters c p us = .ok q) : q.Checked c := by
  induction us generalizing p with
  | nil =>
    cases h
    exact hp
  | cons u us ih =>
    cases u with
    | broken bs => cases h
    | char l =>
      rw [CommandLine.takeLetters] at h
      split at h
      · obtain ⟨p', hp', h⟩ := exists_of_bind_eq_ok h
        exact ih (hp.takeFlag hp') h
      · cases h

/-- A positional argument lets nothing in that is not accepted. -/
theorem Checked.takePositional (hp : p.Checked c) {arg : Bytes} (h : takePositional c p arg = .ok q) : q.Checked c := by
  unfold CommandLine.takePositional at h
  split at h
  · cases h
  · split at h
    · split at h
      · cases h
        exact hp
      · obtain ⟨p', hp, h⟩ := hp.exists_resolved h
        cases h
        exact hp
    · split at h
      · cases h
      · obtain ⟨p', hp, h⟩ := hp.exists_resolved h
        cases h
        exact hp

/-- Whatever an argument is, nothing gets in that is not accepted. -/
theorem Checked.takeArgument (hp : p.Checked c) {arg : Bytes} (h : takeArgument c p arg = .ok q) : q.Checked c := by
  unfold CommandLine.takeArgument at h
  split at h
  · exact hp.takePositional h
  · split at h
    · cases h
      exact hp
    · dsimp only at h
      split at h
      · cases h
      · split at h
        · exact hp.takeLong h
        · split at h
          · exact hp.takePositional h
          · cases h
    · dsimp only at h
      split at h
      · exact hp.takePositional h
      · exact hp.takeLetters h
    · split at h
      · cases h
        exact hp
      · exact hp.takePositional h

end Progress

/-- A command without subcommands sees none. -/
theorem subcommandAt?_eq_none {c : Command} (hc : c.subcommands = []) (p : Progress) (arg : Bytes) :
    subcommandAt? c p arg = none := by
  have hnone (name : Text) : c.subcommand? name = none := by
    simp [Command.subcommand?, hc]
  unfold subcommandAt?
  split
  · rfl
  · cases Utf8.decode? arg <;> simp [hnone]

/-- Whatever a command without subcommands finds has passed its checks. -/
theorem accepts_of_readFrom {c : Command} (hc : c.subcommands = []) {p : Progress} (hp : p.Checked c) {args : List Bytes}
    {r : Reading} (h : readFrom c p args = .ok r) : ∀ f ∈ r.found, c.Accepts f.1 f.2 := by
  induction args generalizing p with
  | nil =>
    obtain ⟨q, hq, h⟩ := exists_of_bind_eq_ok h
    split at h
    · cases h
    · cases h
      exact hp.resolve hq
  | cons arg args ih =>
    rw [readFrom, subcommandAt?_eq_none hc] at h
    obtain ⟨q, hq, h⟩ := exists_of_bind_eq_ok h
    exact ih (hp.takeArgument hq) h

namespace Reading

variable {r : Reading} {slot : Slot} {v : Bytes}

/-- A value has been found with the others of its slot. -/
theorem exists_found_of_mem_values (h : v ∈ r.values slot) : ∃ values, (slot, values) ∈ r.found ∧ v ∈ values := by
  rw [values] at h
  cases hvalues : r.found.lookup slot with
  | none =>
    rw [hvalues] at h
    exact absurd h List.not_mem_nil
  | some values =>
    rw [hvalues] at h
    obtain ⟨l₁, l₂, hfound, -⟩ := List.lookup_eq_some_iff.1 hvalues
    exact ⟨values, by simp [hfound], h⟩

/-- A switch without a value, where one is needed, has not been given. -/
theorem has_eq_false_of_value? {c : Command} (hr : ∀ f ∈ r.found, c.Accepts f.1 f.2) {long : Text}
    (hlong : c.takesValue (.switch long) = true) (h : r.value? long = none) : r.has long = false := by
  rw [value?, List.head?_eq_none_iff, values] at h
  rw [has, Bool.eq_false_iff, ne_eq, List.any_eq_true]
  rintro ⟨f, hf, heq⟩
  rw [beq_iff_eq] at heq
  cases hvalues : r.found.lookup (.switch long) with
  | none =>
    rw [List.lookup_eq_none_iff] at hvalues
    have hne := hvalues f hf
    rw [heq, bne_self_eq_false] at hne
    cases hne
  | some values =>
    rw [hvalues] at h
    obtain ⟨l₁, l₂, hfound, -⟩ := List.lookup_eq_some_iff.1 hvalues
    exact (hr (.switch long, values) (by simp [hfound])).given hlong h

end Reading

namespace Settings

/-- The name of the switch for the length of class tokens. -/
def lengthSwitch : Text := "class-length".toList

/-- A class length that is read is not zero. -/
theorem one_le_of_parseClassLength {t : Text} {n : Nat} (h : parseClassLength t = .ok n) : 1 ≤ n := by
  unfold parseClassLength at h
  cases hnumber : parseNumber t with
  | error e =>
    rw [hnumber] at h
    cases h
  | ok m =>
    rw [hnumber] at h
    cases m with
    | zero => cases h
    | succ m =>
      cases h
      exact Nat.le_add_left 1 m

/-- The option for the class length takes a value. -/
theorem takesValue_lengthSwitch : program.takesValue (.switch lengthSwitch) = true := by
  decide +kernel

/-- The value of this option is checked by reading it. -/
theorem checkOf_lengthSwitch (v : Bytes) : program.checkOf (.switch lengthSwitch) v =
    checkText (fun t => (parseClassLength t).map fun _ => ()) v := by
  have hnames : ("dry-run".toList == lengthSwitch) = false ∧ ("diff".toList == lengthSwitch) = false ∧
      ("seed".toList == lengthSwitch) = false ∧ ("class-length".toList == lengthSwitch) = true := by
    decide +kernel
  simp only [Command.checkOf, Command.switch?, Command.allSwitches, program, programSwitches, List.cons_append, List.find?_cons,
    hnames]
  rfl

/-- The values of the switch are lengths. -/
theorem exists_length_of_checkOf {v : Bytes} (h : program.checkOf (.switch lengthSwitch) v = .ok ()) :
    ∃ t n, Utf8.decode? v = some t ∧ parseClassLength t = .ok n := by
  rw [checkOf_lengthSwitch, checkText] at h
  split at h
  · cases h
  · next t ht =>
    cases hn : parseClassLength t with
    | error e =>
      rw [hn] at h
      cases h
    | ok n => exact ⟨t, n, ht, hn⟩

/-- The length of class tokens is the one that was asked for, or the usual one if none was. -/
theorem classLength_of_parse {args : List Bytes} {s : Settings} (h : parse args = .ok s) : ∃ r, read program args = .ok r ∧
    ((r.has lengthSwitch = false ∧ s.classLength = Token.defaultClassTokenLength) ∨
      ∃ v t, r.value? lengthSwitch = some v ∧ Utf8.decode? v = some t ∧ parseClassLength t = .ok s.classLength) := by
  unfold parse at h
  cases hread : read program args with
  | error e =>
    rw [hread] at h
    cases h
  | ok r =>
    rw [hread] at h
    obtain rfl : ofReading r = s := Except.ok.inj h
    have hr : ∀ f ∈ r.found, program.Accepts f.1 f.2 := accepts_of_readFrom rfl (fun _ hf => absurd hf List.not_mem_nil) hread
    have hlength : (ofReading r).classLength = ((r.value? lengthSwitch).bind fun v =>
        (Utf8.decode? v).bind fun t => (parseClassLength t).toOption).getD Token.defaultClassTokenLength := rfl
    refine ⟨r, rfl, ?_⟩
    cases hv : r.value? lengthSwitch with
    | none =>
      rw [hv] at hlength
      exact .inl ⟨Reading.has_eq_false_of_value? hr takesValue_lengthSwitch hv, hlength⟩
    | some v =>
      obtain ⟨values, hfound, hmem⟩ := Reading.exists_found_of_mem_values (List.mem_of_head? hv)
      obtain ⟨t, n, ht, hn⟩ := exists_length_of_checkOf ((hr _ hfound).checked v hmem)
      simp only [hv, Option.bind_some, ht, hn, Except.toOption, Option.getD_some] at hlength
      exact .inr ⟨v, t, rfl, ht, hn.trans (congrArg _ hlength.symm)⟩

/-- Settings that are read have a class length that is not zero. -/
theorem one_le_classLength {args : List Bytes} {s : Settings} (h : parse args = .ok s) : 1 ≤ s.classLength := by
  obtain ⟨r, -, ⟨-, hlength⟩ | ⟨v, t, -, -, hlength⟩⟩ := classLength_of_parse h
  · rw [hlength]
    decide
  · exact one_le_of_parseClassLength hlength

end Settings

end Pseudonym.CommandLine
