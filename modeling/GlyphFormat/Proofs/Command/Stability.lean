import GlyphFormat.Proofs.Command.Targets

/-!
# Stability of formatting runs

Where every target can be examined and every write passes, a formatting run gives each file that a
target leads to its canonical text, and touches nothing else. Which files these are and which code
the run has does not depend on the order of the targets or on how often one is named. A check of the
same targets behind it finds what the run could not format, and nothing else (`run_stable`).
-/

namespace GlyphFormat

/-! ## The command line of a check -/

namespace Arguments

variable {args : List Text} {a : Arguments}

/-- The same request for a check. -/
def Request.checking : Request → Request
  | .run a => .run { a with check := true }
  | r => r

/-- The same state with a check asked for. -/
def State.checking (s : State) : State :=
  { s with arguments := { s.arguments with check := true } }

theorem State.endPaths_checking (s : State) : s.checking.endPaths = s.endPaths.checking := by
  unfold endPaths checking
  dsimp only
  split <;> rfl

theorem State.addPath_checking (s : State) (t : Text) (keep : Bool) :
    s.checking.addPath t keep = (s.addPath t keep).checking := by
  unfold addPath checking
  dsimp only
  split
  · rfl
  · cases keep <;> rfl

theorem State.foldl_addFlag_checking (s : State) (flags : List Flag) :
    flags.foldl addFlag s.checking = (flags.foldl addFlag s).checking := by
  induction flags generalizing s with
  | nil => rfl
  | cons f flags ih =>
      have hone : s.checking.addFlag f = (s.addFlag f).checking := by cases f <;> rfl
      rw [List.foldl_cons, List.foldl_cons, hone, ih]

/-- Asking for a check first is asking for it in the end. By induction on the pieces. -/
theorem follow_checking (pieces : List (Text × Piece)) (s : State) :
    follow pieces s.checking = (follow pieces s).checking := by
  induction pieces generalizing s with
  | nil =>
      show (if s.extras = [] then _ else _) = Request.checking (if s.extras = [] then _ else _)
      split <;> rfl
  | cons p pieces ih =>
      obtain ⟨t, piece⟩ := p
      cases piece with
      | path =>
          show follow pieces (s.checking.addPath t true) = _
          rw [State.addPath_checking, ih]
          rfl
      | separator =>
          show follow pieces (s.checking.addPath t false) = _
          rw [State.addPath_checking, ih]
          rfl
      | unknown =>
          show follow pieces { s.checking.endPaths with extras := s.extras ++ [t] } = _
          rw [State.endPaths_checking]
          exact ih { s.endPaths with extras := s.extras ++ [t] }
      | option flag short attached =>
          simp only [follow]
          cases flagsOf flag short attached with
          | error f => rfl
          | ok flags =>
              dsimp only
              split
              · rfl
              · rw [State.endPaths_checking, State.foldl_addFlag_checking, ih]

/-- With `--check` in front a command line asks for a check of the same. -/
theorem parse_check (h : parse args = .run a) :
    parse ("--check" :: args) = .run { a with check := true } := by
  have hone : classifyOne "--check" = .ok (.option .check false none) := by decide +kernel
  have hclassify : classify ("--check" :: args) =
      (classify args).map fun pieces =>
        (("--check" : Text), .option .check false none) :: pieces := by
    rw [classify, if_neg (by decide), hone]
    cases classify args <;> rfl
  rw [parse] at h
  rw [parse, hclassify]
  cases hargs : classify args with
  | error f =>
      rw [hargs] at h
      cases h
  | ok pieces =>
      rw [hargs] at h
      dsimp only at h
      show follow pieces (State.checking {}) = _
      rw [follow_checking, h]
      rfl

end Arguments

namespace Command

open AtomicWrite (Allows)

variable {fs fs' : FileSystem} {a : Arguments} {p : Path} {ps : List Path}

/-! ## Formatting and checking -/

/-- Where canonical texts are all there is to format, checking gives what formatting gives. -/
theorem fileStatus_check
    (h : ∀ s t, fs.readText none p = .ok s → formatSource s (some p) = .ok t → t = s) :
    fileStatus noFaults { a with check := true } fs p = fileStatus noFaults a fs p := by
  unfold fileStatus noFaults
  split
  · rfl
  · dsimp only
    cases hread : fs.readText none p with
    | error cause => rfl
    | ok s =>
        dsimp only
        unfold sourceStatus
        dsimp only
        split
        · rfl
        · cases hformat : formatSource s (some p) with
          | error e => rfl
          | ok t =>
              dsimp only
              rw [if_pos (h s t hread hformat), if_pos (h s t hread hformat)]

/-- Every write to a file that one of the paths leads to passes. -/
def WritesPass (fs : FileSystem) (ps : List Path) : Prop :=
  ∀ p ∈ ps, ∀ c m, fs.stat p = .ok (.file c m) → ∀ t,
    (fs.write AtomicWrite.noFaults p t).1 = .ok ()

theorem WritesPass.allows {l : Location} {c : Octets} {m : Nat} (h : WritesPass fs ps)
    (hfs : fs.IsTree) (hp : p ∈ ps) (hl : fs.locate p = .ok l)
    (hfile : fs.get? l = some (.file c m)) : Allows fs AtomicWrite.noFaults l :=
  (FileSystem.write_eq_ok_iff hfs hl hfile []).mp
    (h p hp c m (FileSystem.stat_eq_ok_iff.mpr ⟨l, hl, hfile⟩) [])

/-- Whether a write passes does not depend on the text. -/
theorem writesPass_of_nil (hfs : fs.IsTree)
    (h : ∀ p ∈ ps, (fs.write AtomicWrite.noFaults p []).1 = .ok ()) : WritesPass fs ps := by
  intro p hp c m hstat t
  obtain ⟨l, hl, hfile⟩ := FileSystem.stat_eq_ok_iff.mp hstat
  rw [FileSystem.write_eq_ok_iff hfs hl hfile, ← FileSystem.write_eq_ok_iff hfs hl hfile []]
  exact h p hp

/-- The status of a formatted file is that of formatting it and that of checking it. -/
theorem fileStatus_check_of_settles (hfs : fs.IsTree) (htree : a.tree = false)
    (hcheck : a.check = false) (h : FileSystem.Settles noFaults fs ps fs')
    (hwrites : WritesPass fs ps) (hp : p ∈ ps) :
    fileStatus noFaults { a with check := true } fs' p = fileStatus noFaults a fs p := by
  rw [← fileStatus_of_settles hfs htree hcheck h]
  refine fileStatus_check fun s t hread hformat => ?_
  obtain ⟨-, l, c', m', hs⟩ := FileSystem.exists_readsAs hread
  have hlocated : fs.locate p = .ok l := (h.shape.locate p).symm.trans hs.located
  obtain ⟨c, m, hfile⟩ := h.shape.exists_file hs.file
  exact h.eq_of_formatSource hp ⟨rfl, hwrites.allows hfs hp hlocated hfile⟩ hs hformat

theorem settles_fileAfter (hfs : fs.IsTree) (htree : a.tree = false) (hcheck : a.check = false)
    (ps : List Path) :
    FileSystem.Settles noFaults fs ps (ps.foldl (fileAfter noFaults a) fs) := by
  have hformat : fileAfter noFaults a =
      fun fs p => (fs.formatFile (noFaults (fs.resolve p)) p).2 := by
    funext fs p
    rw [fileAfter, htree, hcheck]
    rfl
  rw [hformat]
  exact FileSystem.settles_formatAll hfs noFaults ps

/-- Checks leave the files as they are. -/
theorem foldl_fileAfter_check (hcheck : a.check = true) (fs : FileSystem) (ps : List Path) :
    ps.foldl (fileAfter noFaults a) fs = fs := by
  induction ps with
  | nil => rfl
  | cons p ps ih =>
      rw [List.foldl_cons, fileAfter, hcheck, Bool.or_true, if_pos rfl]
      exact ih

/-- A formatting run has the code of a check behind it. -/
theorem highestCode_check_of_settles (hfs : fs.IsTree) (htree : a.tree = false)
    (hcheck : a.check = false) (h : FileSystem.Settles noFaults fs ps fs')
    (hwrites : WritesPass fs ps) :
    highestCode noFaults { a with check := true } fs' ps = highestCode noFaults a fs ps := by
  have hcodes : ∀ p ∈ ps, (fileStatus noFaults { a with check := true } fs' p).code =
      (fileStatus noFaults a fs p).code := fun p hp =>
    congrArg Status.code (fileStatus_check_of_settles hfs htree hcheck h hwrites hp)
  rw [highestCode, List.map_congr_left hcodes]
  rfl

/-- The readable files that the paths lead to hold their canonical texts, as far as they have one,
with the permission bits they had. Everything else is as it was. -/
structure HoldsCanonical (fs : FileSystem) (ps : List Path) (fs' : FileSystem) : Prop where
  formatted : ∀ l c m, fs.Reaches ps l → fs.get? l = some (.file c m) →
    FileSystem.ownerReads m = true → ∃ m', fs'.get? l = some (.file c.formatted m') ∧
      m' % FileSystem.permissionBits = m % FileSystem.permissionBits
  kept : ∀ l, (¬∃ c m, fs.Reaches ps l ∧ fs.get? l = some (.file c m) ∧
    FileSystem.ownerReads m = true) → fs'.get? l = fs.get? l

theorem holdsCanonical_of_settles (hfs : fs.IsTree) (h : FileSystem.Settles noFaults fs ps fs')
    (hwrites : WritesPass fs ps) : HoldsCanonical fs ps fs' := by
  refine ⟨fun l c m hl hfile hm => ?_, fun l hl => ?_⟩
  · obtain ⟨p, hp, hlocated⟩ := hl
    obtain ⟨m', hformatted, hbits⟩ := Node.formatted_file hm c
    refine ⟨m', ?_, hbits⟩
    rw [h.settled l ⟨p, hp, hlocated⟩ ⟨rfl, hwrites.allows hfs hp hlocated hfile⟩, hfile,
      Option.map_some]
    exact congrArg some hformatted
  · by_cases hsettled : fs.Reaches ps l ∧ fs.Undisturbed (noFaults l) l
    · rw [h.settled l hsettled.1 hsettled.2]
      cases hn : fs.get? l with
      | none => rfl
      | some n =>
          rw [Option.map_some, Node.formatted_eq_self none]
          rintro c m s t rfl hm - -
          exact absurd ⟨c, m, hsettled.1, hn, hm⟩ hl
    · exact h.kept l hsettled

/-! ## Runs -/

section

variable {args : List Text} {files : FileSystem} {ts : List Text}

/-- The standard input is not worked on where there are paths and none of them is a dash. -/
theorem dash_notMem_targets : dash ∉ targets a ↔ a.paths ≠ [] ∧ dash ∉ a.paths := by
  unfold targets
  cases a.paths with
  | nil => exact iff_of_false (fun h => h (List.mem_singleton_self dash)) fun h => h.1 rfl
  | cons t ts => exact (and_iff_right (List.cons_ne_nil t ts)).symm

/-- Then the paths are the targets. -/
theorem targets_eq_paths (hdash : dash ∉ targets a) : targets a = a.paths := by
  rw [targets, List.isEmpty_eq_false_iff.mpr (dash_notMem_targets.mp hdash).1]
  rfl

/-- A run of targets that can be examined has an answer, which is that of all their files. -/
theorem exists_answer (settings : Settings) (stdin : Octets) (hfs : files.IsTree)
    (hargs : Arguments.parse args = .run a) (hdash : dash ∉ targets a)
    (hexam : ∀ t ∈ a.paths, Examinable files t) :
    ∃ answer, run settings args stdin files = .ok answer ∧
      answer.code = highestCode noFaults a files (a.paths.flatMap (targetFiles files)) ∧
      answer.files = (a.paths.flatMap (targetFiles files)).foldl (fileAfter noFaults a) files := by
  have htargets := targets_eq_paths hdash
  rw [← htargets] at hexam ⊢
  obtain ⟨hcode, hfiles⟩ := answer_runFiles hfs stdin noFaults a settings.trace (targets a)
    (level a settings)
  rw [← highestCode_targetFiles] at hcode
  exact ⟨_, run_eq_answer hfs hargs hdash hexam, hcode, hfiles⟩

/-- The answer of a formatting run. -/
theorem exists_answer_settles (settings : Settings) (stdin : Octets) (hfs : files.IsTree)
    (hargs : Arguments.parse args = .run { paths := ts }) (hdash : dash ∉ targets { paths := ts })
    (hexam : ∀ t ∈ ts, Examinable files t) :
    ∃ answer, run settings args stdin files = .ok answer ∧
      answer.code = highestCode noFaults { paths := ts } files (ts.flatMap (targetFiles files)) ∧
      FileSystem.Settles noFaults files (ts.flatMap (targetFiles files)) answer.files := by
  obtain ⟨answer, hrun, hcode, hfiles⟩ := exists_answer settings stdin hfs hargs hdash hexam
  refine ⟨answer, hrun, hcode, ?_⟩
  rw [hfiles]
  exact settles_fileAfter hfs rfl rfl _

/-- Where every target can be examined and every write passes, a formatting run leaves canonical
texts. Its code and what it leaves do not depend on the order of the targets or on their repetition.
A check of the same targets behind it has the same code, and writes nothing. -/
theorem run_stable (settings : Settings) (stdin : Octets) (hfs : files.IsTree)
    (hargs : Arguments.parse args = .run { paths := ts }) (hdash : dash ∉ targets { paths := ts })
    (hexam : ∀ t ∈ ts, Examinable files t)
    (hwrites : WritesPass files (ts.flatMap (targetFiles files))) :
    ∃ answer, run settings args stdin files = .ok answer ∧
      HoldsCanonical files (ts.flatMap (targetFiles files)) answer.files ∧
      (∀ (settings' : Settings) args' stdin' ts',
        Arguments.parse args' = .run { paths := ts' } → (∀ t, t ∈ ts' ↔ t ∈ ts) →
        ∃ answer', run settings' args' stdin' files = .ok answer' ∧
          answer'.code = answer.code ∧ ∀ l, answer'.files.get? l = answer.files.get? l) ∧
      ∀ (settings' : Settings) stdin', ∃ checked,
        run settings' ("--check" :: args) stdin' answer.files = .ok checked ∧
          checked.code = answer.code ∧ checked.files = answer.files := by
  obtain ⟨answer, hrun, hcode, hsettles⟩ :=
    exists_answer_settles settings stdin hfs hargs hdash hexam
  refine ⟨answer, hrun, holdsCanonical_of_settles hfs hsettles hwrites,
    fun settings' args' stdin' ts' hargs' hsame => ?_, fun settings' stdin' => ?_⟩
  · have hdash' : dash ∉ targets { paths := ts' } := by
      rw [dash_notMem_targets] at hdash ⊢
      refine ⟨fun (hnil : ts' = []) => ?_, fun h => hdash.2 ((hsame dash).mp h)⟩
      obtain ⟨t, ht⟩ := List.exists_mem_of_ne_nil ts hdash.1
      rw [← hsame, hnil] at ht
      exact List.not_mem_nil ht
    obtain ⟨answer', hrun', hcode', hsettles'⟩ := exists_answer_settles settings' stdin' hfs hargs'
      hdash' fun t ht => hexam t ((hsame t).mp ht)
    have hpaths : ∀ p, p ∈ ts.flatMap (targetFiles files) ↔ p ∈ ts'.flatMap (targetFiles files) :=
      fun p => by simp only [List.mem_flatMap, hsame]
    refine ⟨answer', hrun', ?_, hsettles.get?_eq hsettles' fun l => ?_⟩
    · rw [hcode', hcode]
      exact (highestCode_eq_of_mem_iff noFaults { paths := ts } files hpaths).symm
    · simp only [FileSystem.Reaches, hpaths]
  · obtain ⟨checked, hchecked, hcode', hfiles'⟩ := exists_answer settings' stdin'
      (hsettles.shape.isTree hfs) (Arguments.parse_check hargs) hdash
      fun t ht => (Examinable.congr hsettles.shape).mpr (hexam t ht)
    refine ⟨checked, hchecked, ?_, hfiles'.trans (foldl_fileAfter_check rfl _ _)⟩
    rw [hcode', hcode, flatMap_targetFiles_congr hsettles.shape]
    exact highestCode_check_of_settles hfs rfl rfl hsettles hwrites

/-- A directory with a file that has no canonical text, a missing file, and a file of that directory
once more. -/
theorem run_stable_repeated :
    let files : FileSystem :=
      { entries := [(["d"], .directory 0o755), (["d", "a.gly"], .file (Utf8.encode "1  2") 0o644),
          (["d", "b.gly"], .file (Utf8.encode "]") 0o644)] }
    let args : List Text := ["d", "c.gly", "d/a.gly"]
    ∃ answer, run {} args [] files = .ok answer ∧
      (∃ m, answer.files.get? ["d", "a.gly"] = some (.file (Utf8.encode "1 2\n") m)) ∧
      (∃ m, answer.files.get? ["d", "b.gly"] = some (.file (Utf8.encode "]") m)) ∧
      (∃ answer', run {} ["d/a.gly", "d/a.gly", "c.gly", "d"] [] files = .ok answer' ∧
        answer'.code = answer.code) ∧
      ∃ checked, run {} ("--check" :: args) [] answer.files = .ok checked ∧
        checked.code = answer.code ∧ checked.files = answer.files := by
  intro files args
  have hfs : files.IsTree := by decide +kernel
  have hargs : Arguments.parse args = .run { paths := args } := by decide +kernel
  have hexam : ∀ t ∈ args, Examinable files t := by decide +kernel
  have hpaths : args.flatMap (targetFiles files) = [Path.ofText "d/a.gly", Path.ofText "d/b.gly",
      Path.ofText "c.gly", Path.ofText "d/a.gly"] := by
    have hsorted : [(["d", "a.gly"] : Location), ["d", "b.gly"]].Pairwise
        fun l l' => Path.partsLe l l' = true := by decide +kernel
    have hbelow : files.below ["d"] suffix = [(["d", "a.gly"] : Location), ["d", "b.gly"]] :=
      List.mergeSort_of_pairwise hsorted
    have hl : files.locate (Path.ofText "d") = .ok ["d"] := by decide +kernel
    have hd := targetFiles_of_directory (hexam "d" (by decide)) (by decide +kernel) hl
    rw [hbelow] at hd
    have hc : targetFiles files "c.gly" = _ := targetFiles_of_not_directory (by decide +kernel)
    have ha : targetFiles files "d/a.gly" = _ := targetFiles_of_not_directory (by decide +kernel)
    rw [List.flatMap_cons, List.flatMap_cons, List.flatMap_singleton, hd, hc, ha]
    decide +kernel
  have hwrites : WritesPass files (args.flatMap (targetFiles files)) := by
    rw [hpaths]
    exact writesPass_of_nil hfs (by decide +kernel)
  obtain ⟨answer, hrun, hholds, hsame, hcheck⟩ :=
    run_stable {} [] hfs hargs (by decide +kernel) hexam hwrites
  have hholdsAt : ∀ p l c, p ∈ args.flatMap (targetFiles files) → files.locate p = .ok l →
      files.get? l = some (.file c 0o644) →
      ∃ m, answer.files.get? l = some (.file c.formatted m) := fun p l c hp hl hfile =>
    (hholds.formatted l c 0o644 ⟨p, hp, hl⟩ hfile (by decide)).imp fun _ h => h.1
  rw [hpaths] at hholdsAt
  have ha := hholdsAt (Path.ofText "d/a.gly") ["d", "a.gly"] (Utf8.encode "1  2")
    (by decide +kernel) (by decide +kernel) (by decide +kernel)
  have hb := hholdsAt (Path.ofText "d/b.gly") ["d", "b.gly"] (Utf8.encode "]")
    (by decide +kernel) (by decide +kernel) (by decide +kernel)
  rw [show (Utf8.encode "1  2").formatted = Utf8.encode "1 2\n" by decide +kernel] at ha
  rw [show (Utf8.encode "]").formatted = Utf8.encode "]" by decide +kernel] at hb
  obtain ⟨answer', hrun', hcode', -⟩ := hsame {} ["d/a.gly", "d/a.gly", "c.gly", "d"] []
    ["d/a.gly", "d/a.gly", "c.gly", "d"] (by decide +kernel) fun t => by
      simp only [args, List.mem_cons, List.not_mem_nil, or_false]
      grind
  exact ⟨answer, hrun, ha, hb, ⟨answer', hrun', hcode'⟩, hcheck {} []⟩

end

end Command

end GlyphFormat
