import GlyphFormat.Proofs.Command.Files

/-!
# The targets of a run

As long as every target can be examined, none keeps another from being worked on, whatever fails at
the files: the files of all targets are worked on in order, and the exit code is the highest of
those that the targets have by themselves. A target that cannot be examined stops the run where it
stands (`run_targets`): its path or one below it is too long, or a directory on its way cannot be
gone through.
-/

namespace GlyphFormat.Command

variable {fs fs' : FileSystem} {faults : Faults} {a : Arguments} {w : Bool} {s : State} {t : Text}
  {ts : List Text}

/-! ## The files of a target -/

/-- The target can be examined. -/
def Examinable (fs : FileSystem) (t : Text) : Prop := ∃ ps, expand fs (Path.ofText t) = .ok ps

instance (fs : FileSystem) (t : Text) : Decidable (Examinable fs t) :=
  match h : expand fs (Path.ofText t) with
  | .ok ps => .isTrue ⟨ps, h⟩
  | .error f => .isFalse fun ⟨ps, hps⟩ => by rw [h] at hps; cases hps

/-- What keeps a target from being examined. -/
theorem fault_of_expand {p : Path} {f : AccessFault} (h : expand fs p = .error f) :
    f = .denied ∨ f = .nameTooLong := by
  unfold expand at h
  cases hisdir : fs.isDirectory p with
  | error g =>
      rw [hisdir] at h
      obtain rfl := Except.error.inj h
      exact FileSystem.fault_of_isDirectory hisdir
  | ok isdir =>
      rw [hisdir] at h
      cases isdir with
      | false => cases h
      | true =>
          obtain ⟨l, hl⟩ := FileSystem.exists_of_isDirectory hisdir
          simp only [hl] at h
          split at h
          · exact Or.inr (Except.error.inj h).symm
          · cases h

/-- The files that a target stands for, if it can be examined. -/
def targetFiles (fs : FileSystem) (t : Text) : List Path :=
  match expand fs (Path.ofText t) with
  | .ok ps => ps
  | .error _ => []

/-- A directory stands for what is below it and has the name of a source file. -/
theorem targetFiles_of_directory {dir : Location} (hexam : Examinable fs t)
    (hdir : fs.isDirectory (Path.ofText t) = .ok true)
    (hl : fs.locate (Path.ofText t) = .ok dir) :
    targetFiles fs t =
      (fs.below dir suffix).map fun l => (Path.ofText t).append (l.drop dir.length) := by
  obtain ⟨ps, hps⟩ := hexam
  rw [targetFiles, hps]
  simp only [expand, hdir, hl] at hps
  split at hps
  · cases hps
  · exact (Except.ok.inj hps).symm

/-- Anything else stands for itself. -/
theorem targetFiles_of_not_directory (hdir : fs.isDirectory (Path.ofText t) = .ok false) :
    targetFiles fs t = [Path.ofText t] := by
  simp only [targetFiles, expand, hdir]

/-- What the files of a target are does not depend on what they hold. -/
theorem expand_congr (h : fs.SameShape fs') (p : Path) : expand fs' p = expand fs p := by
  unfold expand
  simp only [h.isDirectory, h.locate, h.directories, h.below]

theorem Examinable.congr (h : fs.SameShape fs') : Examinable fs' t ↔ Examinable fs t := by
  rw [Examinable, expand_congr h, Examinable]

theorem targetFiles_congr (h : fs.SameShape fs') (t : Text) :
    targetFiles fs' t = targetFiles fs t := by
  rw [targetFiles, expand_congr h, targetFiles]

theorem flatMap_targetFiles_congr (h : fs.SameShape fs') (ts : List Text) :
    ts.flatMap (targetFiles fs') = ts.flatMap (targetFiles fs) :=
  congrArg ts.flatMap (funext (targetFiles_congr h))

/-! ## Work on targets -/

theorem runTarget_eq_ok (ht : t ≠ dash) (hexam : Examinable s.files t) :
    runTarget faults a w s t = .ok (s.runFiles faults a w (targetFiles s.files t)) := by
  obtain ⟨ps, hps⟩ := hexam
  rw [runTarget, if_neg ht, targetFiles, hps]
  rfl

/-- Targets that can be examined are worked on one after the other. By induction on the targets: the
files of the next ones are the same whatever became of those of the first. -/
theorem runTargets_eq_ok (hfs : s.files.IsTree) (hdash : dash ∉ ts)
    (hexam : ∀ t ∈ ts, Examinable s.files t) :
    runTargets faults a w ts s =
      .ok (s.runFiles faults a w (ts.flatMap (targetFiles s.files))) := by
  induction ts generalizing s with
  | nil => rfl
  | cons t ts ih =>
      obtain ⟨ht, hts⟩ := List.forall_mem_cons.mp hexam
      have hne : t ≠ dash := fun h => hdash (h ▸ List.mem_cons_self)
      have hshape := (State.runFiles_spec hfs faults a w (targetFiles s.files t)).2.2
      rw [runTargets, runTarget_eq_ok hne ht]
      dsimp only
      rw [ih (hshape.isTree hfs) (fun h => hdash (List.mem_cons_of_mem _ h))
          fun t ht => (Examinable.congr hshape).mpr (hts t ht),
        flatMap_targetFiles_congr hshape, List.flatMap_cons, State.runFiles, State.runFiles,
        State.runFiles, List.foldl_append]

theorem runTargets_append (ts us : List Text) (s : State) :
    runTargets faults a w (ts ++ us) s =
      match runTargets faults a w ts s with
      | .error e => .error e
      | .ok s' => runTargets faults a w us s' := by
  induction ts generalizing s with
  | nil => rfl
  | cons t ts ih =>
      rw [List.cons_append, runTargets, runTargets]
      cases runTarget faults a w s t with
      | error e => rfl
      | ok s' => exact ih s'

/-- The code that a target gives by itself. -/
def targetCode (faults : Faults) (a : Arguments) (fs : FileSystem) (t : Text) : Nat :=
  highestCode faults a fs (targetFiles fs t)

/-- The highest code of all files of targets is the highest of the targets. -/
theorem highestCode_targetFiles (faults : Faults) (a : Arguments) (fs : FileSystem)
    (ts : List Text) : highestCode faults a fs (ts.flatMap (targetFiles fs)) =
      (ts.map (targetCode faults a fs)).foldr max 0 := by
  induction ts with
  | nil => rfl
  | cons t ts ih => rw [List.flatMap_cons, highestCode_append, ih]; rfl

/-! ## Runs -/

/-- The answer of a run that ends in the state. -/
def State.answer (s : State) (l : Level) : Answer :=
  ⟨s.status.code, s.stdout, shown l s.stderr, s.files⟩

section

variable {settings : Settings} {args : List Text} {stdin : Octets} {files : FileSystem}

/-- A run of targets that can be examined works on all their files, in order. -/
theorem run_eq_answer (hfs : files.IsTree) (hargs : Arguments.parse args = .run a)
    (hdash : dash ∉ targets a) (hexam : ∀ t ∈ targets a, Examinable files t) :
    run settings args stdin files faults = .ok
      ((({ files, stdin } : State).runFiles faults a settings.trace
        ((targets a).flatMap (targetFiles files))).answer (level a settings)) := by
  rw [run, hargs]
  dsimp only
  rw [runTargets_eq_ok (s := { files, stdin }) hfs hdash hexam]
  rfl

/-- The code of such a run is the highest that a target gives, and formatting is done file by
file. -/
theorem answer_runFiles (hfs : files.IsTree) (stdin : Octets) (faults : Faults) (a : Arguments)
    (w : Bool) (ts : List Text) (l : Level) :
    ((({ files, stdin } : State).runFiles faults a w
        (ts.flatMap (targetFiles files))).answer l).code =
        (ts.map (targetCode faults a files)).foldr max 0 ∧
      ((({ files, stdin } : State).runFiles faults a w
        (ts.flatMap (targetFiles files))).answer l).files =
        (ts.flatMap (targetFiles files)).foldl (fileAfter faults a) files := by
  obtain ⟨hcode, hfiles, -⟩ := State.runFiles_spec (s := { files, stdin }) hfs faults a w
    (ts.flatMap (targetFiles files))
  refine ⟨?_, hfiles⟩
  rw [← highestCode_targetFiles]
  exact hcode.trans (Nat.zero_max _)

/-- A run stops at the first target that cannot be examined. The files of those before it were
worked on, and what comes behind it is not looked at. -/
theorem run_eq_stopped {before after : List Text} {fault : AccessFault} (hfs : files.IsTree)
    (hargs : Arguments.parse args = .run a) (hdash : dash ∉ targets a)
    (hsplit : targets a = before ++ t :: after) (hexam : ∀ u ∈ before, Examinable files u)
    (hfault : expand files (Path.ofText t) = .error fault) :
    run settings args stdin files faults = .error
      ⟨fault, (before.flatMap (targetFiles files)).foldl (fileAfter faults a) files⟩ := by
  rw [hsplit] at hdash
  have hbefore : dash ∉ before := fun h => hdash (List.mem_append_left _ h)
  have ht : t ≠ dash := fun h => hdash (List.mem_append_right _ (h ▸ List.mem_cons_self))
  obtain ⟨-, hfiles, hshape⟩ := State.runFiles_spec (s := { files, stdin }) hfs faults a
    settings.trace (before.flatMap (targetFiles files))
  rw [run, hargs]
  dsimp only
  rw [hsplit, runTargets_append, runTargets_eq_ok (s := { files, stdin }) hfs hbefore hexam]
  dsimp only
  rw [runTargets, runTarget, if_neg ht, expand_congr hshape, hfault]
  dsimp only
  rw [hfiles]

/-- Targets are worked on in order, and none that can be examined keeps another from it, whatever
fails at the files. The code of the run is the highest that a target gives in a run by itself. A
target that cannot be examined ends the run with its fault, without an answer. -/
theorem run_targets (settings : Settings) (stdin : Octets) (faults : Faults) (hfs : files.IsTree)
    (hargs : Arguments.parse args = .run a) (hdash : dash ∉ targets a) :
    ((∀ t ∈ targets a, Examinable files t) →
      ∃ answer, run settings args stdin files faults = .ok answer ∧
        answer = (({ files, stdin } : State).runFiles faults a settings.trace
          ((targets a).flatMap (targetFiles files))).answer (level a settings) ∧
        answer.code = ((targets a).map (targetCode faults a files)).foldr max 0 ∧
        answer.files = ((targets a).flatMap (targetFiles files)).foldl (fileAfter faults a) files) ∧
    (∀ t ∈ targets a, Examinable files t → ∀ (settings' : Settings) args' stdin',
      Arguments.parse args' = .run { a with paths := [t] } →
      ∃ alone, run settings' args' stdin' files faults = .ok alone ∧
        alone.code = targetCode faults a files t ∧
        alone.files = (targetFiles files t).foldl (fileAfter faults a) files) ∧
    ∀ before t after fault, targets a = before ++ t :: after →
      (∀ u ∈ before, Examinable files u) → expand files (Path.ofText t) = .error fault →
      (fault = .denied ∨ fault = .nameTooLong) ∧
      run settings args stdin files faults = .error
        ⟨fault, (before.flatMap (targetFiles files)).foldl (fileAfter faults a) files⟩ := by
  refine ⟨fun hexam => ?_, fun t ht hexam settings' args' stdin' halone => ?_,
    fun before t after fault hsplit hexam hfault =>
      ⟨fault_of_expand hfault, run_eq_stopped hfs hargs hdash hsplit hexam hfault⟩⟩
  · have hanswer := answer_runFiles hfs stdin faults a settings.trace (targets a)
      (level a settings)
    exact ⟨_, run_eq_answer hfs hargs hdash hexam, rfl, hanswer⟩
  · have htargets : targets { a with paths := [t] } = [t] := rfl
    have hdash' : dash ∉ targets { a with paths := [t] } := by
      rw [htargets, List.mem_singleton]
      rintro rfl
      exact hdash ht
    have hexam' : ∀ u ∈ targets { a with paths := [t] }, Examinable files u := by
      rw [htargets]
      exact List.forall_mem_singleton.mpr hexam
    obtain ⟨hcode, hfiles⟩ := answer_runFiles hfs stdin' faults { a with paths := [t] }
      settings'.trace (targets { a with paths := [t] }) (level { a with paths := [t] } settings')
    refine ⟨_, run_eq_answer hfs halone hdash' hexam', ?_, ?_⟩
    · rw [hcode]
      exact Nat.max_zero _
    · rw [hfiles, htargets, List.flatMap_singleton]
      rfl

/-- A name without octets, a file with a diagnostic, a missing one and one that cannot be written
come before a file that is formatted. -/
theorem run_targets_faults :
    let files : FileSystem :=
      { entries := [(["a.gly"], .file (Utf8.encode "1  2") 0o644),
          (["b.gly"], .file (Utf8.encode "]") 0o644),
          (["e.gly"], .file (Utf8.encode "3  4") 0o644)] }
    let faults : Faults := fun l => if l = ["e.gly"] then
        { write := fun step =>
            if step = .write then some ⟨28, "No space left on device"⟩ else none }
      else {}
    let args : List Text :=
      [⟨0xD800, by decide⟩ :: ".gly", "b.gly", "c.gly", "e.gly", "a.gly"]
    ∃ answer, run {} args [] files faults = .ok answer ∧ answer.code = 3 ∧
      args.map (targetCode faults { paths := args } files) = [3, 1, 2, 2, 0] ∧
      answer.files.get? ["e.gly"] = some (.file (Utf8.encode "3  4") 0o644) ∧
      answer.files.get? ["a.gly"] = some (.file (Utf8.encode "1 2\n") 0o644) := by
  intro files faults args
  have hargs : Arguments.parse args = .run { paths := args } := by decide +kernel
  have hfs : files.IsTree := by decide +kernel
  have hexam : ∀ t ∈ args, Examinable files t := by decide +kernel
  obtain ⟨answer, hrun, -, hcode, hfiles⟩ :=
    (run_targets {} [] faults hfs hargs (by decide +kernel)).1 hexam
  have hget := fun l => congrArg (FileSystem.get? · l) hfiles
  exact ⟨answer, hrun, hcode.trans (by decide +kernel), by decide +kernel,
    (hget ["e.gly"]).trans (by decide +kernel), (hget ["a.gly"]).trans (by decide +kernel)⟩

end

/-- A name that is too long ends a run without an answer, and so does a directory that cannot be
gone through. The file behind it is left as it was. -/
theorem exists_run_eq_stopped :
    let files : FileSystem :=
      { entries := [(["a.gly"], .file (Utf8.encode "1  2") 0o644), (["d"], .directory 0o600),
          (["d", "b.gly"], .file (Utf8.encode "3  4") 0o644)] }
    let long : List Text := [List.replicate 256 'n', "a.gly"]
    let closed : List Text := ["d/b.gly", "a.gly"]
    files.IsTree ∧
      (Arguments.parse long = .run { paths := long } ∧ dash ∉ long ∧
        (¬∃ answer, run {} long [] files = .ok answer) ∧
        run {} long [] files = .error ⟨.nameTooLong, files⟩) ∧
      Arguments.parse closed = .run { paths := closed } ∧ dash ∉ closed ∧
        (¬∃ answer, run {} closed [] files = .ok answer) ∧
        run {} closed [] files = .error ⟨.denied, files⟩ := by
  intro files long closed
  have hfs : files.IsTree := by decide +kernel
  have hstopped : ∀ {args : List Text} {t u : Text} {fault : AccessFault},
      Arguments.parse args = .run { paths := [t, u] } → dash ∉ [t, u] →
      expand files (Path.ofText t) = .error fault →
      (¬∃ answer, run {} args [] files = .ok answer) ∧
        run {} args [] files = .error ⟨fault, files⟩ := by
    intro args t u fault hargs hdash hfault
    have hrun : run {} args [] files = .error ⟨fault, files⟩ :=
      run_eq_stopped hfs hargs hdash (show targets _ = [] ++ _ :: _ from rfl)
        (List.forall_mem_nil _) hfault
    refine ⟨?_, hrun⟩
    rintro ⟨answer, hanswer⟩
    cases hanswer.symm.trans hrun
  have hlong : Arguments.parse long = .run { paths := long } := by decide +kernel
  have hclosed : Arguments.parse closed = .run { paths := closed } := by decide +kernel
  have hdash : dash ∉ long ∧ dash ∉ closed := by decide +kernel
  exact ⟨hfs, ⟨hlong, hdash.1, hstopped hlong hdash.1 (by decide +kernel)⟩,
    hclosed, hdash.2, hstopped hclosed hdash.2 (by decide +kernel)⟩

end GlyphFormat.Command
