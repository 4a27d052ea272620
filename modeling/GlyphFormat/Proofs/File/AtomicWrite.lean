import GlyphFormat.File.AtomicWrite
import GlyphFormat.Proofs.File.Tree
import GlyphFormat.Proofs.Text.Classes

/-!
# Atomic writes to files

Writing to a file that is there either puts the new content in its place or leaves the file system
as it was, whichever steps fail (`AtomicWrite.run_outcome`). In between nothing has changed but for
a temporary file, where nothing was before. The new file has the permission bits of the old one,
unless the old one was taken to be absent (`hidesTarget`): then it has those of a temporary file.

What is known in front of each step is its `Stage`, and a step that is made or left out leads from
its stage to the next one (`stage_attempt`, `stage_skip`). The run is then one induction over the
steps that are left. Which runs succeed is a condition on each step by itself (`run_ok_iff`).
-/

namespace GlyphFormat

/-- The system itself reports the cause. -/
def IoCause.isSystem : IoCause → Bool
  | .access f => f.isSystem
  | .system _ => true
  | .decode _ | .other _ => false

namespace AtomicWrite

open FileSystem (permissionBits)

variable {fs : FileSystem} {faults : Faults} {j : Job} {p q : Progress} {s : Step}

/-! ## Temporary files -/

theorem length_lt_temporaryName (j : Job) (k : Nat) : 2 < (temporaryName j k).length := by
  simp only [temporaryName, Text.ofString, List.length_append, List.length_map]
  have hdot : ".".toList.length = 1 := by decide
  have hend : ".tmp".toList.length = 4 := by decide
  omega

/-- A free name is one for a temporary file, and nothing has it. -/
theorem of_freeName? {n : Text} (h : freeName? fs j = some n) :
    fs.get? (directory j ++ [n]) = none ∧ 2 < n.length := by
  obtain ⟨k, -, rfl⟩ := List.mem_map.mp (List.mem_of_find?_eq_some h)
  exact ⟨by simpa using List.find?_some h, length_lt_temporaryName j k⟩

/-- Behind the directory of what is there a long name leads to its own place. -/
theorem eq_of_reach (hfs : fs.IsTree) {n : Node} (htarget : fs.get? j.target = some n)
    {name : Text} {l : Location} (hname : 2 < name.length)
    (h : fs.reach (directory j ++ [name]) = .ok l) : l = directory j ++ [name] := by
  have hnext : ∀ k, FileSystem.next k name = k ++ [name] := fun k => by
    rw [FileSystem.next, if_neg, if_neg]
    · rintro rfl
      exact absurd hname (by decide)
    · rintro rfl
      exact absurd hname (by decide)
  have hdir : (directory j).foldl FileSystem.next [] = directory j := by
    have hnames : ∀ name ∈ directory j, FileSystem.IsEntryName name := fun name hmem =>
      hfs.isEntryName htarget name (List.dropLast_subset _ hmem)
    exact FileSystem.foldl_next_eq hnames
  unfold FileSystem.reach at h
  split at h
  · cases h
  · rw [FileSystem.eq_foldl_of_walk h, List.foldl_append, hdir]
    exact hnext _

/-! ## Stages -/

/-- The target is taken to be absent, whatever is there. -/
def hidesTarget (faults : Faults) : Bool := (faults .find).any SystemError.meansAbsence

/-- The permission bits that a write gets to know of a target that has the bits `m`. -/
def knownMode (faults : Faults) (m : Nat) : Option Nat :=
  if hidesTarget faults then none else some (m % permissionBits)

/-- The permission bits of the new file. Those of a temporary file let its owner read and write. -/
def newMode (faults : Faults) (m : Nat) : Nat := (knownMode faults m).getD 0o600

/-- A temporary file is where nothing was, and no other entry has changed. -/
def Holds (fs : FileSystem) (mode : Option Nat) (n : Node) (p : Progress) : Prop :=
  ∃ l, fs.get? l = none ∧ p = ⟨fs.set l n, mode.isSome, mode, some l⟩

/-- The file system with the new content in its place. -/
def replaced (fs : FileSystem) (j : Job) (m : Nat) : FileSystem :=
  { fs.set j.target (.file j.content m) with replaced := j.target :: fs.replaced }

theorem get?_replaced (h : j.target ≠ []) (m : Nat) (l : Location) :
    (replaced fs j m).get? l = if l = j.target then some (.file j.content m) else fs.get? l :=
  FileSystem.get?_set h l

/-- How far a write has come in front of a step, or behind the last one. The permission bits of the
target are `mode`, if they get known; those of the temporary file become the same before it is
moved. -/
def Stage (fs : FileSystem) (j : Job) (mode : Option Nat) : Option Step → Progress → Prop
  | some .find, p => p = { fs }
  | some .stat, p => p = { fs, found := mode.isSome }
  | some .create, p => p = { fs, found := mode.isSome, mode }
  | some .write, p => Holds fs mode (.file [] 0o600) p
  | some .flush, p | some .sync, p | some .close, p | some .changeMode, p =>
    Holds fs mode (.file j.content 0o600) p
  | some .replace, p => Holds fs mode (.file j.content (mode.getD 0o600)) p
  | none, p => p = { fs := replaced fs j (mode.getD 0o600), found := mode.isSome, mode }

def Step.next? : Step → Option Step
  | .find => some .stat
  | .stat => some .create
  | .create => some .write
  | .write => some .flush
  | .flush => some .sync
  | .sync => some .close
  | .close => some .changeMode
  | .changeMode => some .replace
  | .replace => none

theorem mem_steps (s : Step) : s ∈ steps := by cases s <;> decide

theorem head?_of_suffix {rest : List Step} (h : s :: rest <:+ steps) : rest.head? = s.next? := by
  simp only [steps, List.suffix_cons_iff, List.cons.injEq, List.suffix_nil, reduceCtorEq,
    or_false] at h
  rcases h with ⟨rfl, rfl⟩ | ⟨rfl, rfl⟩ | ⟨rfl, rfl⟩ | ⟨rfl, rfl⟩ | ⟨rfl, rfl⟩ | ⟨rfl, rfl⟩ |
    ⟨rfl, rfl⟩ | ⟨rfl, rfl⟩ | ⟨rfl, rfl⟩ <;> rfl

/-- The temporary file alone is changed. -/
theorem Holds.onTemporary {mode : Option Nat} {n : Node} (h : Holds fs mode n p)
    (f : Node → Node) : Holds fs mode (f n) (p.onTemporary f) := by
  obtain ⟨l, hl, rfl⟩ := h
  refine ⟨l, hl, ?_⟩
  have hne := FileSystem.ne_nil_of_get?_eq_none hl
  simp only [Progress.onTemporary, FileSystem.update, FileSystem.get?_set_self hne,
    FileSystem.set_set]

theorem Holds.mode_eq {mode : Option Nat} {n : Node} (h : Holds fs mode n p) : p.mode = mode := by
  obtain ⟨l, -, rfl⟩ := h
  rfl

/-- The temporary file takes the place of the target. -/
theorem Holds.move {mode : Option Nat} {k : Nat} {c : Octets} {m : Nat}
    (h : Holds fs mode (.file j.content k) p) (htarget : fs.get? j.target = some (.file c m))
    (hq : perform j p .replace = .ok q) :
    q = { fs := replaced fs j k, found := mode.isSome, mode } := by
  obtain ⟨l, hl, rfl⟩ := h
  have hne := FileSystem.ne_nil_of_get?_eq_none hl
  have hapart : j.target ≠ l := fun heq => by
    rw [heq, hl] at htarget
    cases htarget
  have hkept : (fs.set l (.file j.content k)).get? j.target = some (.file c m) := by
    rw [FileSystem.get?_set_of_ne hne hapart, htarget]
  have hmoved : (fs.set l (.file j.content k)).move l j.target = replaced fs j k := by
    rw [FileSystem.move, FileSystem.get?_set_self hne]
    dsimp only
    rw [FileSystem.erase_set_of_ne hapart, FileSystem.erase_set_self, FileSystem.erase_eq_self hl]
    rfl
  rw [perform, hkept, if_neg (by simp [Node.isDirectory, Node.directoryMode?])] at hq
  rw [← Except.ok.inj hq, hmoved]

/-! ### Steps that are made -/

/-- Only the first step may fail and pass. -/
theorem attempt_eq_ok_iff (hs : s ≠ .find) :
    attempt faults j p s = .ok q ↔ faults s = none ∧ perform j p s = .ok q := by
  unfold attempt
  cases faults s with
  | some e => simp [hs]
  | none => cases perform j p s <;> simp [Except.mapError, hs]

theorem perform_of_attempt (h : attempt faults j p s = .ok q) (hs : s ≠ .find) :
    perform j p s = .ok q := ((attempt_eq_ok_iff hs).mp h).2

/-- A target that is there is seen, unless it is hidden or something fails. -/
theorem attempt_find (hfs : fs.IsTree) {n : Node} (htarget : fs.get? j.target = some n) :
    attempt faults j { fs } .find = .ok q ↔
      hidesTarget faults = true ∧ q = { fs } ∨
        faults .find = none ∧ (∃ l, fs.reach j.target = .ok l) ∧ q = { fs, found := true } := by
  unfold attempt hidesTarget
  cases hfault : faults .find with
  | some e =>
      by_cases he : e.meansAbsence = true
      · simp [IoCause.meansAbsence, he, eq_comm]
      · simp [IoCause.meansAbsence, he]
  | none =>
      cases hreach : fs.reach j.target with
      | error f =>
          simp [perform, hreach, Except.mapError, IoCause.meansAbsence,
            hfs.meansAbsence_of_reach htarget hreach]
      | ok l =>
          obtain rfl := hfs.eq_of_reach htarget hreach
          simp [perform, hreach, FileSystem.entry, htarget, Except.map, Except.mapError, eq_comm]

/-- The permission bits of a target that is there get known. -/
theorem perform_stat (hfs : fs.IsTree) {c : Octets} {m : Nat}
    (htarget : fs.get? j.target = some (.file c m)) :
    perform j { fs, found := true } .stat = .ok q ↔
      (∃ l, fs.reach j.target = .ok l) ∧
        q = { fs, found := true, mode := some (m % permissionBits) } := by
  rw [perform]
  dsimp only
  cases hreach : fs.reach j.target with
  | error f => simp
  | ok l =>
      obtain rfl := hfs.eq_of_reach htarget hreach
      simp [FileSystem.entry, htarget, Except.map, Node.mode, eq_comm]

/-- A temporary file is made in the directory of the target. -/
theorem perform_create (hfs : fs.IsTree) {n : Node} (htarget : fs.get? j.target = some n)
    {found : Bool} {mode : Option Nat} :
    perform j { fs, found, mode } .create = .ok q ↔
      ∃ name, freeName? fs j = some name ∧
        (∃ l, fs.reach (directory j ++ [name]) = .ok l) ∧
        fs.permits FileSystem.ownerWrites (directory j) = true ∧
        q = ⟨fs.set (directory j ++ [name]) (.file [] 0o600), found, mode,
          some (directory j ++ [name])⟩ := by
  rw [perform]
  dsimp only
  cases hname : freeName? fs j with
  | none => simp
  | some name =>
      cases hreach : fs.reach (directory j ++ [name]) with
      | error f => simp [hreach]
      | ok l =>
          obtain rfl := eq_of_reach hfs htarget (of_freeName? hname).2 hreach
          by_cases hwrites : fs.permits FileSystem.ownerWrites (directory j) = true
          · simp [hwrites, hreach, eq_comm]
          · simp [hwrites, hreach]

/-- A step that is made leads to the stage of the next one. -/
theorem stage_attempt (hfs : fs.IsTree) {c : Octets} {m : Nat}
    (htarget : fs.get? j.target = some (.file c m))
    (h : Stage fs j (knownMode faults m) (some s) p) (happlies : applies p s = true)
    (hq : attempt faults j p s = .ok q) : Stage fs j (knownMode faults m) s.next? q := by
  cases s with
  | find =>
      obtain rfl : p = { fs } := h
      rcases (attempt_find hfs htarget).mp hq with ⟨hhides, rfl⟩ | ⟨hnone, -, rfl⟩
      · show _ = _
        rw [knownMode, if_pos hhides]
        rfl
      · show _ = _
        rw [knownMode, hidesTarget, hnone]
        rfl
  | stat =>
      obtain rfl : p = { fs, found := (knownMode faults m).isSome } := h
      have hfound : (knownMode faults m).isSome = true := happlies
      have hmode : knownMode faults m = some (m % permissionBits) := by
        unfold knownMode at hfound ⊢
        split at hfound
        · cases hfound
        · rw [if_neg ‹_›]
      have hperform := perform_of_attempt hq nofun
      rw [hfound] at hperform
      obtain ⟨-, rfl⟩ := (perform_stat hfs htarget).mp hperform
      rw [hmode]
      rfl
  | create =>
      obtain rfl := h
      have hperform := perform_of_attempt hq nofun
      obtain ⟨name, hname, -, -, rfl⟩ := (perform_create hfs htarget).mp hperform
      exact ⟨_, (of_freeName? hname).1, rfl⟩
  | write =>
      have hperform := perform_of_attempt hq nofun
      rw [perform] at hperform
      rw [← Except.ok.inj hperform]
      exact Holds.onTemporary h _
  | flush | sync | close =>
      have hperform := perform_of_attempt hq nofun
      rw [perform] at hperform
      rw [← Except.ok.inj hperform]
      exact h
  | changeMode =>
      have hperform := perform_of_attempt hq nofun
      obtain ⟨k, hk⟩ := Option.isSome_iff_exists.mp (show p.mode.isSome = true from happlies)
      rw [perform, hk] at hperform
      rw [← Except.ok.inj hperform]
      have hmode : knownMode faults m = some k := (Holds.mode_eq h).symm.trans hk
      show Holds _ _ (.file j.content ((knownMode faults m).getD 0o600)) _
      rw [hmode]
      rw [hmode] at h
      exact Holds.onTemporary h _
  | replace =>
      have hperform := perform_of_attempt hq nofun
      exact Holds.move h htarget hperform

/-- So does a step that is left out, as the permission bits of the target are not known then. -/
theorem stage_skip {mode : Option Nat} (h : Stage fs j mode (some s) p)
    (happlies : applies p s = false) : mode = none ∧ Stage fs j mode s.next? p := by
  cases s with
  | stat =>
      obtain rfl : p = { fs, found := mode.isSome } := h
      obtain rfl : mode = none := Option.not_isSome_iff_eq_none.mp (Bool.eq_false_iff.mp happlies)
      exact ⟨rfl, rfl⟩
  | changeMode =>
      have hnone : p.mode = none := Option.not_isSome_iff_eq_none.mp (Bool.eq_false_iff.mp happlies)
      obtain rfl : mode = none := (Holds.mode_eq h).symm.trans hnone
      exact ⟨rfl, h⟩
  | find | create | write | flush | sync | close | replace => cases happlies

/-! ### What stays as it was -/

/-- Up to the last step nothing has changed but for a temporary file. -/
def Untouched (fs fs' : FileSystem) : Prop :=
  fs' = fs ∨ ∃ l n, fs.get? l = none ∧ fs' = fs.set l n

theorem Untouched.get? {fs' : FileSystem} (h : Untouched fs fs') {l : Location} {n : Node}
    (hl : fs.get? l = some n) : fs'.get? l = some n := by
  rcases h with rfl | ⟨k, v, hk, rfl⟩
  · exact hl
  · rw [FileSystem.get?_set_of_ne (FileSystem.ne_nil_of_get?_eq_none hk), hl]
    rintro rfl
    rw [hl] at hk
    cases hk

/-- In front of a step the target is as it was, and cleaning up leaves everything as it was. -/
theorem Stage.untouched {mode : Option Nat} (h : Stage fs j mode (some s) p) :
    Untouched fs p.fs ∧ cleanUp p = fs := by
  have hholds : ∀ {n : Node}, Holds fs mode n p → Untouched fs p.fs ∧ cleanUp p = fs := by
    rintro n ⟨l, hl, rfl⟩
    refine ⟨Or.inr ⟨l, n, hl, rfl⟩, ?_⟩
    show (fs.set l n).erase l = fs
    rw [FileSystem.erase_set_self, FileSystem.erase_eq_self hl]
  cases s with
  | find | stat | create =>
      obtain rfl := h
      exact ⟨Or.inl rfl, rfl⟩
  | write | flush | sync | close | changeMode | replace => exact hholds h

/-- Asking for what is at the end of a full path fails for a reason of the system. -/
theorem isSystem_of_ask {α : Type} {l : Location} {f : AccessFault} {g : Node → α}
    (h : (match fs.reach l with
      | .error f => Except.error f
      | .ok k => (fs.entry k).map g) = .error f) : f.isSystem = true := by
  cases hreach : fs.reach l with
  | error f' =>
      rw [hreach] at h
      obtain rfl := Except.error.inj h
      exact FileSystem.isSystem_of_reach hreach
  | ok k =>
      rw [hreach] at h
      dsimp only at h
      cases hentry : fs.entry k with
      | ok n => rw [hentry] at h; cases h
      | error f' =>
          rw [hentry] at h
          obtain rfl := Except.error.inj h
          exact FileSystem.isSystem_of_entry hentry

/-- Only the system makes steps fail. -/
theorem isSystem_of_perform {f : AccessFault} (h : perform j p s = .error f) :
    f.isSystem = true := by
  cases s with
  | find | stat => exact isSystem_of_ask h
  | create =>
      rw [perform] at h
      cases hname : freeName? p.fs j with
      | none =>
          rw [hname] at h
          obtain rfl := Except.error.inj h
          rfl
      | some n =>
          simp only [hname] at h
          cases hreach : p.fs.reach (directory j ++ [n]) with
          | error g =>
              rw [hreach] at h
              obtain rfl := Except.error.inj h
              exact FileSystem.isSystem_of_reach hreach
          | ok l =>
              rw [hreach] at h
              dsimp only at h
              split at h
              · cases h
              · obtain rfl := Except.error.inj h
                rfl
  | write | flush | sync | close => cases h
  | changeMode =>
      rw [perform] at h
      split at h <;> cases h
  | replace =>
      rw [perform] at h
      split at h
      · obtain rfl := Except.error.inj h
        rfl
      · split at h <;> cases h

theorem isSystem_of_attempt {cause : IoCause} (h : attempt faults j p s = .error cause) :
    cause.isSystem = true := by
  unfold attempt at h
  cases hfault : faults s with
  | some e =>
      simp only [hfault] at h
      split at h
      · cases h
      · obtain rfl := Except.error.inj h
        rfl
  | none =>
      simp only [hfault] at h
      cases hperform : perform j p s with
      | ok q => rw [hperform] at h; cases h
      | error f =>
          rw [hperform] at h
          simp only [Except.mapError] at h
          split at h
          · cases h
          · obtain rfl := Except.error.inj h
            exact isSystem_of_perform hperform

/-! ## Runs -/

/-- What a run of the steps that are left comes to. -/
structure Outcome (fs : FileSystem) (j : Job) (m : Nat)
    (r : Except IoCause Unit × FileSystem × List FileSystem) : Prop where
  /-- With success the new content is in its place. -/
  ok : r.1 = .ok () → r.2.1 = replaced fs j m
  /-- A fault leaves everything as it was. -/
  error : ∀ cause, r.1 = .error cause → r.2.1 = fs ∧ cause.isSystem = true
  between : ∀ fs' ∈ r.2.2, Untouched fs fs'

/-- By induction on the steps that are left. -/
theorem runSteps_outcome (faults : Faults) (hfs : fs.IsTree) {c : Octets} {m : Nat}
    (htarget : fs.get? j.target = some (.file c m)) {ss : List Step} (hss : ss <:+ steps)
    (h : Stage fs j (knownMode faults m) ss.head? p) :
    Outcome fs j (newMode faults m) (runSteps faults j ss p) := by
  induction ss generalizing p with
  | nil =>
      obtain rfl := h
      exact ⟨fun _ => rfl, nofun, nofun⟩
  | cons s rest ih =>
      obtain ⟨huntouched, hclean⟩ := Stage.untouched h
      have hrest := (List.suffix_cons s rest).trans hss
      rw [runSteps]
      split
      · rename_i happlies
        cases hattempt : attempt faults j p s with
        | error cause =>
            refine ⟨nofun, fun cause' hc => ⟨hclean, ?_⟩, List.forall_mem_singleton.mpr huntouched⟩
            obtain rfl := Except.error.inj hc
            exact isSystem_of_attempt hattempt
        | ok q =>
            have hstage := stage_attempt hfs htarget h happlies hattempt
            rw [← head?_of_suffix hss] at hstage
            have hq := ih hrest hstage
            exact ⟨hq.ok, hq.error, List.forall_mem_cons.mpr ⟨huntouched, hq.between⟩⟩
      · rename_i happlies
        have hstage := (stage_skip h (Bool.eq_false_iff.mpr happlies)).2
        rw [← head?_of_suffix hss] at hstage
        exact ih hrest hstage

/-- Writing to a file that is there either replaces its content or changes nothing. -/
theorem run_outcome (faults : Faults) (hfs : fs.IsTree) {c : Octets} {m : Nat}
    (htarget : fs.get? j.target = some (.file c m)) :
    Outcome fs j (newMode faults m) (run faults j fs) :=
  runSteps_outcome faults hfs htarget (List.suffix_refl steps) rfl

/-! ## Runs that succeed -/

/-- The rules of the file system let a step of a write to the location pass. -/
def Lets (fs : FileSystem) (l : Location) : Step → Prop
  | .find | .stat => ∃ k, fs.reach l = .ok k
  | .create => ∃ name, freeName? fs ⟨l, []⟩ = some name ∧
      (∃ k, fs.reach (l.dropLast ++ [name]) = .ok k) ∧
      fs.permits FileSystem.ownerWrites l.dropLast = true
  | _ => True

/-- The step looks at the target, or does something that hangs on that. -/
def Step.regardsTarget : Step → Bool
  | .find | .stat | .changeMode => true
  | _ => false

/-- A step of a write to the location is no obstacle: it passes by the rules and without a fault of
its own, or the target is hidden and the step does not matter. -/
def Passes (fs : FileSystem) (faults : Faults) (l : Location) (s : Step) : Prop :=
  hidesTarget faults = true ∧ s.regardsTarget = true ∨ faults s = none ∧ Lets fs l s

/-- A write to the location passes. -/
def Allows (fs : FileSystem) (faults : Faults) (l : Location) : Prop :=
  ∀ s, Passes fs faults l s

/-- A step that is left out is no obstacle. -/
theorem passes_of_skip {m : Nat} (h : Stage fs j (knownMode faults m) (some s) p)
    (happlies : applies p s = false) : Passes fs faults j.target s := by
  have hnone := (stage_skip h happlies).1
  have hhides : hidesTarget faults = true := by
    unfold knownMode at hnone
    split at hnone
    · assumption
    · cases hnone
  refine Or.inl ⟨hhides, ?_⟩
  cases s with
  | find | stat | changeMode => rfl
  | create | write | flush | sync | close | replace => cases happlies

/-- One that is made is no obstacle if it succeeds. -/
theorem passes_iff_attempt (hfs : fs.IsTree) {c : Octets} {m : Nat}
    (htarget : fs.get? j.target = some (.file c m))
    (h : Stage fs j (knownMode faults m) (some s) p) (happlies : applies p s = true) :
    Passes fs faults j.target s ↔ ∃ q, attempt faults j p s = .ok q := by
  have hseen : s ≠ .find → s.regardsTarget = true → hidesTarget faults = false := by
    intro hs hregards
    have hmode : (knownMode faults m).isSome = true := by
      cases s with
      | find => exact absurd rfl hs
      | stat =>
          obtain rfl : p = { fs, found := (knownMode faults m).isSome } := h
          exact happlies
      | changeMode =>
          rw [← Holds.mode_eq h]
          exact happlies
      | create | write | flush | sync | close | replace => cases hregards
    unfold knownMode at hmode
    split at hmode
    · cases hmode
    · exact Bool.eq_false_iff.mpr ‹_›
  have hmade : s ≠ .find → ((∃ q, perform j p s = .ok q) ↔ Lets fs j.target s) →
      (Passes fs faults j.target s ↔ ∃ q, attempt faults j p s = .ok q) := by
    intro hs hlets
    simp only [attempt_eq_ok_iff hs, exists_and_left, hlets, Passes]
    refine or_iff_right fun ⟨hhides, hregards⟩ => ?_
    rw [hseen hs hregards] at hhides
    cases hhides
  cases s with
  | find =>
      obtain rfl : p = { fs } := h
      simp only [attempt_find hfs htarget, exists_or, exists_and_left, exists_eq, and_true,
        Passes, Lets, Step.regardsTarget]
  | stat =>
      obtain rfl : p = { fs, found := (knownMode faults m).isSome } := h
      have hfound : (knownMode faults m).isSome = true := happlies
      refine hmade nofun ?_
      rw [hfound]
      simp only [perform_stat hfs htarget, exists_and_left, exists_eq, and_true, Lets]
  | create =>
      obtain rfl := h
      refine hmade nofun ?_
      have hname : freeName? fs ⟨j.target, []⟩ = freeName? fs j := rfl
      simp only [perform_create hfs htarget, Lets, hname, directory]
      constructor
      · rintro ⟨q, name, hfree, hreach, hwrites, -⟩
        exact ⟨name, hfree, hreach, hwrites⟩
      · rintro ⟨name, hfree, hreach, hwrites⟩
        exact ⟨_, name, hfree, hreach, hwrites, rfl⟩
  | write | flush | sync | close => exact hmade nofun (iff_of_true ⟨_, rfl⟩ trivial)
  | changeMode =>
      refine hmade nofun (iff_of_true ?_ trivial)
      rw [perform]
      split <;> exact ⟨_, rfl⟩
  | replace =>
      refine hmade nofun (iff_of_true ?_ trivial)
      rw [perform, (Stage.untouched h).1.get? htarget,
        if_neg (by simp [Node.isDirectory, Node.directoryMode?])]
      split <;> exact ⟨_, rfl⟩

/-- A run succeeds if no step that is left is an obstacle. By induction on these steps. -/
theorem runSteps_ok_iff (hfs : fs.IsTree) {c : Octets} {m : Nat}
    (htarget : fs.get? j.target = some (.file c m)) {ss : List Step} (hss : ss <:+ steps)
    (h : Stage fs j (knownMode faults m) ss.head? p) :
    (runSteps faults j ss p).1 = .ok () ↔ ∀ s ∈ ss, Passes fs faults j.target s := by
  induction ss generalizing p with
  | nil => exact iff_of_true rfl (List.forall_mem_nil _)
  | cons s rest ih =>
      have hrest := (List.suffix_cons s rest).trans hss
      rw [runSteps, List.forall_mem_cons]
      split
      · rename_i happlies
        rw [passes_iff_attempt hfs htarget h happlies]
        cases hattempt : attempt faults j p s with
        | error cause => simp
        | ok q =>
            have hstage := stage_attempt hfs htarget h happlies hattempt
            rw [← head?_of_suffix hss] at hstage
            exact (ih hrest hstage).trans (and_iff_right ⟨q, rfl⟩).symm
      · rename_i happlies
        have hskip := Bool.eq_false_iff.mpr happlies
        have hstage := (stage_skip h hskip).2
        rw [← head?_of_suffix hss] at hstage
        exact (ih hrest hstage).trans (and_iff_right (passes_of_skip h hskip)).symm

/-- Whether a write passes does not depend on what is written. -/
theorem run_ok_iff (hfs : fs.IsTree) {c : Octets} {m : Nat}
    (htarget : fs.get? j.target = some (.file c m)) :
    (run faults j fs).1 = .ok () ↔ Allows fs faults j.target :=
  (runSteps_ok_iff hfs htarget (List.suffix_refl steps) rfl).trans
    ⟨fun h s => h s (mem_steps s), fun h s _ => h s⟩

theorem Lets.congr {fs' : FileSystem} (h : FileSystem.SameShape fs fs') (l : Location)
    (s : Step) : Lets fs' l s ↔ Lets fs l s := by
  have hlen : fs'.entries.length = fs.entries.length := by
    have := congrArg List.length h.shape
    rwa [FileSystem.shape, FileSystem.shape, List.length_map, List.length_map] at this
  have hfree : freeName? fs' ⟨l, []⟩ = freeName? fs ⟨l, []⟩ := by
    simp only [freeName?, hlen, h.isNone]
  cases s <;> simp only [Lets, h.reach, h.permits, hfree]

theorem Allows.congr {fs' : FileSystem} (h : FileSystem.SameShape fs fs') {l : Location} :
    Allows fs' faults l ↔ Allows fs faults l := by
  simp only [Allows, Passes, Lets.congr h]

end AtomicWrite

end GlyphFormat
