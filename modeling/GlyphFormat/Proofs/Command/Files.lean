import GlyphFormat.Command.Run
import GlyphFormat.Proofs.File.Settling
import GlyphFormat.Proofs.Tree.Outlines

/-!
# Work on one file

What a file contributes to a run is a status and what becomes of the files. The status is known from
the arguments, the files, the path and what fails at the file alone (`fileStatus`), whatever
happened before; so is what becomes of the files (`fileAfter`).
-/

namespace GlyphFormat.Command

/-! ## The status of a file -/

/-- The status of a source that was read. -/
def sourceStatus (faults : AtomicWrite.Faults) (a : Arguments) (fs : FileSystem) (p : Path)
    (source : Text) : Status :=
  if a.tree then
    match (parse source (some p)).diagnostics with
    | [] => .ok
    | _ => .findings
  else
    match formatSource source (some p) with
    | .error _ => .findings
    | .ok formatted =>
      if formatted = source then .ok
      else if a.check then .findings
      else if (fs.write faults p formatted).1 = .ok () then .ok
      else .failedIo

/-- The status of a file. The system cannot be asked about every path. -/
def fileStatus (faults : Faults) (a : Arguments) (fs : FileSystem) (p : Path) : Status :=
  if p.refusal?.isSome then .failed
  else
    let here := faults (fs.resolve p)
    match fs.readText here.read p with
    | .error _ => .failedIo
    | .ok source => sourceStatus here.write a fs p source

/-- The files behind the work on one of them. -/
def fileAfter (faults : Faults) (a : Arguments) (fs : FileSystem) (p : Path) : FileSystem :=
  if a.tree || a.check then fs else (fs.formatFile (faults (fs.resolve p)) p).2

/-- The status of work on a file that came to nothing. -/
def failureStatus : FileFailure → Status
  | .io _ => .failedIo
  | .format (.reported _) => .findings
  | .format (.unwritable _) | .invalid _ => .failed

/-- The status of work on a file: it is done, or came to nothing. -/
def outcomeStatus {α : Type} : Except FileFailure α → Status
  | .ok _ => .ok
  | .error f => failureStatus f

/-! ## What a step of a run leaves -/

namespace State

variable {s s' s'' : State} {status : Status} {a : Arguments} {p : Path}

/-- The first state with the status raised; of the rest only the output may differ. -/
structure Ends (s : State) (status : Status) (s' : State) : Prop where
  status : s'.status = s.status.max status
  files : s'.files = s.files
  stdin : s'.stdin = s.stdin

/-- The states differ in the output alone. -/
structure Quiet (s s' : State) : Prop where
  status : s'.status = s.status
  files : s'.files = s.files
  stdin : s'.stdin = s.stdin

theorem Quiet.ends (h : Quiet s s') (h' : Ends s' status s'') : Ends s status s'' :=
  ⟨h.status ▸ h'.status, h'.files.trans h.files, h'.stdin.trans h.stdin⟩

theorem ends_finish (s : State) (status : Status) : Ends s status (s.finish status) :=
  ⟨rfl, rfl, rfl⟩

theorem quiet_notice (s : State) (ns : List Notice) : Quiet s (s.notice ns) := ⟨rfl, rfl, rfl⟩

theorem files_log (s : State) (es : List LogEntry) : (s.log es).files = s.files := rfl

theorem quiet_print (s : State) (t : Text) : Quiet s (s.print t) := ⟨rfl, rfl, rfl⟩

theorem ends_giveUp (s : State) (w : Bool) (t : Text) (trace : Trace) :
    Ends s .failed (s.giveUp w t trace) := by
  cases w <;> exact ⟨rfl, rfl, rfl⟩

theorem ends_endFormat (s : State) (w : Bool) (f : FormatFailure) :
    Ends s (failureStatus (.format f)) (s.endFormat w f) := by
  cases f with
  | reported ds => exact (quiet_notice s _).ends (ends_finish _ _)
  | unwritable f => exact ends_giveUp s w _ _

theorem ends_endFile (s : State) (w : Bool) (f : FileFailure) :
    Ends s (failureStatus f) (s.endFile w f) := by
  cases f with
  | io f => cases w <;> exact ⟨rfl, rfl, rfl⟩
  | format f => exact ends_endFormat s w f
  | invalid f => exact ends_giveUp s w _ _

/-- A source has an outline or is reported about. -/
theorem ends_printOutline (s : State) (w : Bool) (source : Text) (p : Path) (ha : a.tree = true)
    (faults : AtomicWrite.Faults) (fs : FileSystem) :
    Ends s (sourceStatus faults a fs p source) (s.printOutline w source (some p)) := by
  rw [sourceStatus, if_pos ha, printOutline]
  cases hdiag : (parse source (some p)).diagnostics with
  | nil =>
      obtain ⟨o, ho⟩ := (wellFormed_of_parse hdiag).exists_outline
      rw [ho]
      exact (quiet_print s _).ends (ends_finish _ _)
  | cons d ds => exact (quiet_notice s _).ends (ends_finish _ _)

end State

/-! ## Work on one file -/

section

variable {fs : FileSystem} {faults : Faults} {p : Path} {a : Arguments} {source : Text}

/-- A file that cannot be read gives the status of that failure. -/
theorem fileStatus_of_unread {cause : IoCause}
    (h : fs.readText (faults (fs.resolve p)).read p = .error cause) :
    failureStatus (FileSystem.failure .read p cause) = fileStatus faults a fs p := by
  unfold fileStatus
  cases hp : p.refusal? with
  | some f =>
      rw [FileSystem.readText_of_refusal hp] at h
      obtain rfl := Except.error.inj h
      rw [FileSystem.failure_of_refusal hp]
      rfl
  | none =>
      rw [FileSystem.failure_of_readText hp h]
      simp only [h]
      rfl

theorem fileStatus_of_read (h : fs.readText (faults (fs.resolve p)).read p = .ok source) :
    fileStatus faults a fs p = sourceStatus (faults (fs.resolve p)).write a fs p source := by
  obtain ⟨-, l, c, m, hs⟩ := FileSystem.exists_readsAs h
  unfold fileStatus
  rw [FileSystem.refusal?_of_locate hs.located]
  simp only [h]
  rfl

/-- What formatting comes to is the status of the file. -/
theorem outcomeStatus_formatFile (hfs : fs.IsTree) (htree : a.tree = false)
    (hcheck : a.check = false) :
    outcomeStatus (fs.formatFile (faults (fs.resolve p)) p).1.outcome =
      fileStatus faults a fs p := by
  show outcomeStatus (fs.formatFileTraced (faults (fs.resolve p)) p).1.outcome = _
  have hcanonical := FileSystem.outcome_canonical fs (faults (fs.resolve p)).read p
  cases hread : fs.readText (faults (fs.resolve p)).read p with
  | error cause =>
      rw [hread] at hcanonical
      rw [(FileSystem.formatFileTraced_of_error hcanonical).1]
      exact fileStatus_of_unread hread
  | ok s =>
      obtain ⟨-, l, c, m, hs⟩ := FileSystem.exists_readsAs hread
      rw [hread] at hcanonical
      dsimp only at hcanonical
      rw [fileStatus_of_read hread, sourceStatus, if_neg (Bool.eq_false_iff.mp htree)]
      cases hformat : formatSource s (some p) with
      | error e =>
          rw [hformat] at hcanonical
          obtain ⟨ds, rfl⟩ := reported_of_formatSource hformat
          rw [(FileSystem.formatFileTraced_of_error hcanonical).1]
          rfl
      | ok t =>
          rw [hformat] at hcanonical
          dsimp only
          by_cases hne : t = s
          · subst hne
            rw [(FileSystem.formatFileTraced_of_eq hcanonical).1, if_pos rfl]
            rfl
          · have hrun := AtomicWrite.run_outcome (j := ⟨l, Utf8.encode t⟩)
              (faults (fs.resolve p)).write hfs hs.file
            rw [(FileSystem.formatFileTraced_of_ne hs hcanonical hne).1, if_neg hne,
              if_neg (Bool.eq_false_iff.mp hcheck), FileSystem.write,
              FileSystem.writeTraced_of_locate _ hs.located]
            dsimp only
            cases hresult :
                (AtomicWrite.run (faults (fs.resolve p)).write ⟨l, Utf8.encode t⟩ fs).1 with
            | ok _ => rfl
            | error cause =>
                dsimp only
                rw [FileSystem.failure_of_isSystem (hrun.error cause hresult).2]
                rfl

/-- Checking a file tells whether it has its canonical text. -/
theorem outcomeStatus_checkFile (htree : a.tree = false) (hcheck : a.check = true) :
    (match (fs.checkFile (faults (fs.resolve p)).read p).outcome with
      | .ok true => Status.ok
      | .ok false => Status.findings
      | .error f => failureStatus f) = fileStatus faults a fs p := by
  rw [FileSystem.checkFile]
  dsimp only
  rw [FileSystem.outcome_canonical]
  cases hread : fs.readText (faults (fs.resolve p)).read p with
  | error cause => exact fileStatus_of_unread hread
  | ok s =>
      dsimp only
      rw [fileStatus_of_read hread, sourceStatus, if_neg (Bool.eq_false_iff.mp htree)]
      cases hformat : formatSource s (some p) with
      | error e =>
          obtain ⟨ds, rfl⟩ := reported_of_formatSource hformat
          rfl
      | ok t =>
          by_cases hne : t = s
          · simp [Except.map, hne]
          · simp [Except.map, hne, hcheck]

end

namespace State

variable {s : State} {faults : Faults} {a : Arguments} {w : Bool} {p : Path}

/-! ### The three modes -/

theorem ends_runFile_tree (htree : a.tree = true) :
    Ends s (fileStatus faults a s.files p) (s.runFile faults a w p) := by
  have hquiet := quiet_notice s ([LogEntry.formatting p].map .log)
  rw [runFile]
  dsimp only
  rw [if_pos htree, files_log, FileSystem.load]
  cases hread : s.files.readText (faults (s.files.resolve p)).read p with
  | error cause =>
      rw [← fileStatus_of_unread hread]
      exact hquiet.ends (ends_endFile _ w _)
  | ok source =>
      rw [fileStatus_of_read hread]
      exact hquiet.ends (ends_printOutline _ w source p htree _ _)

theorem ends_runFile_check (htree : a.tree = false) (hcheck : a.check = true) :
    Ends s (fileStatus faults a s.files p) (s.runFile faults a w p) := by
  have hquiet := quiet_notice s ([LogEntry.formatting p].map .log)
  have hlog := quiet_notice (s.log [LogEntry.formatting p])
    (((s.files.checkFile (faults (s.files.resolve p)).read p).events.map LogEntry.ofFileEvent).map
      .log)
  rw [runFile]
  dsimp only
  rw [if_neg (Bool.eq_false_iff.mp htree), if_pos hcheck, files_log,
    ← outcomeStatus_checkFile htree hcheck]
  cases (s.files.checkFile (faults (s.files.resolve p)).read p).outcome with
  | error f => exact hquiet.ends (hlog.ends (ends_endFile _ w f))
  | ok same =>
      cases same with
      | true => exact hquiet.ends (hlog.ends (ends_finish _ _))
      | false =>
          exact hquiet.ends (hlog.ends ((quiet_notice _ _).ends (ends_finish _ _)))

theorem ends_runFile_format (hfs : s.files.IsTree) (htree : a.tree = false)
    (hcheck : a.check = false) :
    Ends { s with files := (s.files.formatFile (faults (s.files.resolve p)) p).2 }
      (fileStatus faults a s.files p) (s.runFile faults a w p) := by
  have hquiet := quiet_notice
    { s with files := (s.files.formatFile (faults (s.files.resolve p)) p).2 }
    ([LogEntry.formatting p].map .log)
  have hlog := quiet_notice
    ({ s with files := (s.files.formatFile (faults (s.files.resolve p)) p).2 }.log
      [LogEntry.formatting p])
    (((s.files.formatFile (faults (s.files.resolve p)) p).1.events.map LogEntry.ofFileEvent).map
      .log)
  rw [runFile]
  dsimp only
  rw [if_neg (Bool.eq_false_iff.mp htree),
    if_neg (Bool.eq_false_iff.mp hcheck), files_log,
    ← outcomeStatus_formatFile hfs htree hcheck]
  cases (s.files.formatFile (faults (s.files.resolve p)) p).1.outcome with
  | error f => exact hquiet.ends (hlog.ends (ends_endFile _ w f))
  | ok t => exact hquiet.ends (hlog.ends (ends_finish _ _))

/-- Work on a file raises the status to that of the file, and does to the files what it does
alone. -/
theorem ends_runFile (hfs : s.files.IsTree) :
    Ends { s with files := fileAfter faults a s.files p } (fileStatus faults a s.files p)
      (s.runFile faults a w p) := by
  unfold fileAfter
  cases htree : a.tree with
  | true => exact ends_runFile_tree htree
  | false =>
      cases hcheck : a.check with
      | true => exact ends_runFile_check htree hcheck
      | false => exact ends_runFile_format hfs htree hcheck

end State

/-! ## Work on many files -/

section

variable {fs fs' : FileSystem} {faults : Faults} {a : Arguments} {p : Path} {ps : List Path}

/-- What formatting does to files does not change the status of any. -/
theorem fileStatus_of_settles (hfs : fs.IsTree) (htree : a.tree = false) (hcheck : a.check = false)
    (h : FileSystem.Settles faults fs ps fs') (p : Path) :
    fileStatus faults a fs' p = fileStatus faults a fs p := by
  have hfs' := h.shape.isTree hfs
  have hresolve := h.shape.resolve p
  cases hread : fs.readText (faults (fs.resolve p)).read p with
  | error cause =>
      cases hread' : fs'.readText (faults (fs.resolve p)).read p with
      | error cause' => simp only [fileStatus, hresolve, hread, hread']
      | ok s' =>
          obtain ⟨s, hs⟩ := h.exists_readText hread'
          rw [hread] at hs
          cases hs
  | ok s =>
      obtain ⟨hnone, l, c, m, hs⟩ := FileSystem.exists_readsAs hread
      have hl : fs.resolve p = l := FileSystem.resolve_of_locate hs.located
      have hwrite : ∀ t, (fs.write (faults l).write p t).1 = .ok () ↔
          AtomicWrite.Allows fs (faults l).write l :=
        FileSystem.write_eq_ok_iff hfs hs.located hs.file
      have hread' : ∀ {c' m' s'}, fs'.ReadsAs p l c' m' s' →
          fs'.readText (faults (fs'.resolve p)).read p = .ok s' := fun hs' => by
        rw [hresolve, hnone]
        exact hs'.readText
      rw [fileStatus_of_read hread, hl]
      rcases h.readsAs hs with hs' | ⟨t, hformat, hne, hclear, hs'⟩
      · have hwrite' : ∀ t, (fs'.write (faults l).write p t).1 = .ok () ↔
            (fs.write (faults l).write p t).1 = .ok () := fun t => by
          rw [FileSystem.write_eq_ok_iff hfs' hs'.located hs'.file,
            AtomicWrite.Allows.congr h.shape, hwrite]
        rw [fileStatus_of_read (hread' hs'), hresolve, hl, sourceStatus, sourceStatus]
        simp only [hwrite']
      · rw [fileStatus_of_read (hread' hs'), hresolve, hl, sourceStatus, sourceStatus, htree,
          hcheck, hformat, formatSource_again hformat (some p)]
        simp [hne, (hwrite t).mpr hclear.2]

/-- Nor does it change where files are. -/
theorem sameShape_fileAfter (hfs : fs.IsTree) (faults : Faults) (a : Arguments) (p : Path) :
    fs.SameShape (fileAfter faults a fs p) := by
  unfold fileAfter
  split
  · exact .refl fs
  · exact (FileSystem.settles_formatFile hfs faults p).shape

theorem fileStatus_fileAfter (hfs : fs.IsTree) (p q : Path) :
    fileStatus faults a (fileAfter faults a fs p) q = fileStatus faults a fs q := by
  unfold fileAfter
  split
  · rfl
  · rename_i hmode
    obtain ⟨htree, hcheck⟩ := Bool.or_eq_false_iff.mp (Bool.eq_false_iff.mpr hmode)
    exact fileStatus_of_settles hfs htree hcheck (FileSystem.settles_formatFile hfs faults p) q

end

/-- The higher of two statuses has the higher code. -/
theorem code_max (a b : Status) : (a.max b).code = max a.code b.code := by
  unfold Status.max
  split
  · rename_i h
    exact (Nat.max_eq_right (Nat.le_of_lt h)).symm
  · rename_i h
    exact (Nat.max_eq_left (Nat.le_of_not_lt h)).symm

/-- The highest code that any of the files gives. -/
def highestCode (faults : Faults) (a : Arguments) (fs : FileSystem) (ps : List Path) : Nat :=
  (ps.map fun p => (fileStatus faults a fs p).code).foldr max 0

theorem highestCode_append (faults : Faults) (a : Arguments) (fs : FileSystem)
    (ps qs : List Path) : highestCode faults a fs (ps ++ qs) =
      max (highestCode faults a fs ps) (highestCode faults a fs qs) := by
  induction ps with
  | nil => exact (Nat.zero_max _).symm
  | cons p ps ih =>
      show max _ (highestCode faults a fs (ps ++ qs)) = _
      rw [ih, ← Nat.max_assoc]
      rfl

/-- It is at most `k` if no file gives more. -/
theorem highestCode_le_iff {faults : Faults} {a : Arguments} {fs : FileSystem} {ps : List Path}
    {k : Nat} :
    highestCode faults a fs ps ≤ k ↔ ∀ p ∈ ps, (fileStatus faults a fs p).code ≤ k := by
  induction ps with
  | nil => exact iff_of_true (Nat.zero_le k) (List.forall_mem_nil _)
  | cons p ps ih =>
      show max _ (highestCode faults a fs ps) ≤ k ↔ _
      rw [Nat.max_le, ih, List.forall_mem_cons]

/-- Neither the order of the files nor their repetition matters to it. -/
theorem highestCode_eq_of_mem_iff (faults : Faults) (a : Arguments) (fs : FileSystem)
    {ps qs : List Path} (h : ∀ p, p ∈ ps ↔ p ∈ qs) :
    highestCode faults a fs ps = highestCode faults a fs qs := by
  have hle : ∀ {ps qs : List Path}, (∀ p ∈ ps, p ∈ qs) →
      highestCode faults a fs ps ≤ highestCode faults a fs qs := fun hsub =>
    highestCode_le_iff.mpr fun p hp => highestCode_le_iff.mp (Nat.le_refl _) p (hsub p hp)
  exact Nat.le_antisymm (hle fun p => (h p).mp) (hle fun p => (h p).mpr)

namespace State

/-- Works on files in order. -/
def runFiles (s : State) (faults : Faults) (a : Arguments) (w : Bool) (ps : List Path) : State :=
  ps.foldl (fun s p => s.runFile faults a w p) s

/-- Each file gives the status that it has at the beginning, whatever becomes of the ones before. By
induction on the files. -/
theorem runFiles_spec {s : State} (hfs : s.files.IsTree) (faults : Faults) (a : Arguments)
    (w : Bool) (ps : List Path) :
    (s.runFiles faults a w ps).status.code = max s.status.code (highestCode faults a s.files ps) ∧
      (s.runFiles faults a w ps).files = ps.foldl (fileAfter faults a) s.files ∧
      s.files.SameShape (s.runFiles faults a w ps).files := by
  induction ps generalizing s with
  | nil => exact ⟨(Nat.max_zero _).symm, rfl, .refl _⟩
  | cons p ps ih =>
      have hfirst : Ends _ _ (s.runFile faults a w p) := ends_runFile hfs
      have hshape := sameShape_fileAfter hfs faults a p
      have hfiles : (s.runFile faults a w p).files = fileAfter faults a s.files p := hfirst.files
      obtain ⟨hstatus, hlast, hrest⟩ :=
        ih (s := s.runFile faults a w p) (hfiles ▸ hshape.isTree hfs)
      rw [hfiles] at hlast hrest hstatus
      refine ⟨?_, hlast, hshape.trans hrest⟩
      have hsame : highestCode faults a (fileAfter faults a s.files p) ps =
          highestCode faults a s.files ps := by
        unfold highestCode
        simp only [fileStatus_fileAfter hfs]
      show ((s.runFile faults a w p).runFiles faults a w ps).status.code = _
      rw [hstatus, hfirst.status, code_max, hsame, Nat.max_assoc]
      rfl

end State

end GlyphFormat.Command
