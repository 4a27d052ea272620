import GlyphFormat.Proofs.Command.Targets
import GlyphFormat.Proofs.File.Order

/-!
# What a directory stands for

A target that is a directory stands for everything below it that is named like a source, in order
and each once (`expand_directory`). The name alone decides: a directory that is named like a source
is among the paths, and working on it fails (`exists_directory_expanded`). Where no directory has
such a name, the paths are those of the source files. What is behind a directory that may not be
looked through is passed over. A directory whose path is too long is not: then the target cannot be
examined.
-/

namespace GlyphFormat.Command

open FileSystem (maxPath octetLength)

variable {fs : FileSystem} {p : Path} {dir : Location}

theorem octetLength_of_locate (h : fs.locate p = .ok dir) : octetLength p.toText < maxPath := by
  unfold FileSystem.locate at h
  split at h
  · cases h
  split at h
  · cases h
  · exact Nat.lt_of_not_le ‹_›

/-- One comes to a directory, at or below the one that the path names, whose path is too long. -/
def HasLongPath (fs : FileSystem) (p : Path) (dir : Location) : Prop :=
  ∃ names, fs.hasDirectory (dir ++ names) = true ∧ fs.reveals dir names = true ∧
    maxPath ≤ octetLength (p.append names).toText

/-- To an open directory that is below one comes always. -/
theorem hasLongPath_iff_of_isOpen (hfs : fs.IsTree) (hopen : fs.IsOpen dir) :
    HasLongPath fs p dir ↔ ∃ names, fs.hasDirectory (dir ++ names) = true ∧
      maxPath ≤ octetLength (p.append names).toText := by
  refine exists_congr fun names => and_congr_right fun hdir => and_iff_right ?_
  obtain ⟨m, hm⟩ := FileSystem.hasDirectory_iff.mp hdir
  exact hopen.reveals hfs (by rw [hm]; rfl)

theorem any_directories_iff (hfs : fs.IsTree) (hmap : fs.IsMap)
    (hlocate : fs.locate p = .ok dir) :
    ((fs.directories dir).any fun l =>
        maxPath ≤ octetLength (p.append (l.drop dir.length)).toText) = true ↔
      HasLongPath fs p dir := by
  simp only [List.any_eq_true, decide_eq_true_eq]
  constructor
  · rintro ⟨l, hl, hlong⟩
    obtain ⟨names, rfl, -, hdir, hrevealed⟩ := (FileSystem.mem_directories_iff hfs hmap).mp hl
    rw [List.drop_left] at hlong
    exact ⟨names, hdir, hrevealed, hlong⟩
  · rintro ⟨names, hdir, hrevealed, hlong⟩
    -- the root has no entry, but it is the target itself then, whose path was not too long
    have hne : dir ++ names ≠ [] := fun hnil => by
      obtain ⟨-, rfl⟩ := List.append_eq_nil_iff.mp hnil
      have hself : p.append [] = p := by rw [Path.append, List.append_nil]
      rw [hself] at hlong
      exact Nat.not_le_of_lt (octetLength_of_locate hlocate) hlong
    refine ⟨dir ++ names, (FileSystem.mem_directories_iff hfs hmap).mpr
      ⟨names, rfl, hne, hdir, hrevealed⟩, ?_⟩
    rwa [List.drop_left]

/-- What a directory target is expanded to, unless a path below it is too long. -/
def pathsBelow (fs : FileSystem) (p : Path) (dir : Location) : List Path :=
  (fs.below dir suffix).map fun l => p.append (l.drop dir.length)

theorem expand_eq (hfs : fs.IsTree) (hmap : fs.IsMap) (hlocate : fs.locate p = .ok dir)
    (hdir : fs.hasDirectory dir = true) :
    (HasLongPath fs p dir → expand fs p = .error .nameTooLong) ∧
      (¬HasLongPath fs p dir → expand fs p = .ok (pathsBelow fs p dir)) := by
  obtain ⟨m, hm⟩ := FileSystem.hasDirectory_iff.mp hdir
  have hisdir : fs.isDirectory p = .ok true := by
    rw [FileSystem.isDirectory, FileSystem.stat_eq_ok_iff.mpr ⟨dir, hlocate, hm⟩]
    rfl
  have hlong := any_directories_iff hfs hmap hlocate
  simp only [expand, hisdir, hlocate]
  exact ⟨fun h => if_pos (hlong.mpr h), fun h => if_neg fun hany => h (hlong.mp hany)⟩

/-! ## The paths -/

theorem mem_pathsBelow_iff {q : Path} :
    q ∈ pathsBelow fs p dir ↔
      ∃ names, q = p.append names ∧ fs.Leads dir suffix names ∧ fs.reveals dir names = true := by
  rw [pathsBelow, List.mem_map]
  constructor
  · rintro ⟨l, hl, rfl⟩
    obtain ⟨names, rfl, hleads⟩ := FileSystem.mem_below_iff.mp hl
    exact ⟨names, by rw [List.drop_left], hleads⟩
  · rintro ⟨names, rfl, hleads⟩
    exact ⟨dir ++ names, FileSystem.mem_below_iff.mpr ⟨names, rfl, hleads⟩,
      by rw [List.drop_left]⟩

theorem pairwise_pathsBelow (fs : FileSystem) (p : Path) (dir : Location) :
    (pathsBelow fs p dir).Pairwise fun q r => Path.partsLe q.parts r.parts = true := by
  refine List.pairwise_map.mpr ((fs.pairwise_below dir suffix).imp_of_mem ?_)
  intro l l' hl hl' hle
  obtain ⟨names, rfl, -⟩ := FileSystem.mem_below_iff.mp hl
  obtain ⟨names', rfl, -⟩ := FileSystem.mem_below_iff.mp hl'
  rw [Path.partsLe_append_left] at hle
  rw [List.drop_left, List.drop_left, Path.append, Path.append, Path.partsLe_append_left]
  exact hle

theorem nodup_pathsBelow (hmap : fs.IsMap) (p : Path) (dir : Location) :
    (pathsBelow fs p dir).Nodup := by
  refine List.Nodup.map_on (fun l hl l' hl' h => ?_) (hmap.nodup_below dir suffix)
  obtain ⟨names, rfl, -⟩ := FileSystem.mem_below_iff.mp hl
  obtain ⟨names', rfl, -⟩ := FileSystem.mem_below_iff.mp hl'
  rw [List.drop_left, List.drop_left] at h
  rw [List.append_cancel_left (congrArg Path.parts h)]

/-- A source file is below the directory. -/
def HasSource (fs : FileSystem) (dir : Location) (names : List Text) : Prop :=
  ∃ content mode, fs.get? (dir ++ names) = some (.file content mode) ∧
    suffix <:+ names.getLastD []

/-- Where only files are named like sources, the paths are those of source files. -/
theorem leads_iff_hasSource (hdir : fs.hasDirectory dir = true)
    (hnone : ∀ names, fs.Leads dir suffix names → fs.hasDirectory (dir ++ names) = false)
    (names : List Text) : fs.Leads dir suffix names ↔ HasSource fs dir names := by
  constructor
  · intro hleads
    have hfile := hnone names hleads
    obtain ⟨n, hn⟩ := Option.isSome_iff_exists.mp hleads.isSome
    cases n with
    | file content mode => exact ⟨content, mode, hn, hleads.suffix⟩
    | directory mode =>
        rw [FileSystem.hasDirectory_iff.mpr ⟨mode, hn⟩] at hfile
        cases hfile
  · rintro ⟨content, mode, hfile, hsuffix⟩
    refine ⟨?_, by rw [hfile]; rfl, hsuffix⟩
    rintro rfl
    obtain ⟨m, hm⟩ := FileSystem.hasDirectory_iff.mp hdir
    rw [List.append_nil, hm] at hfile
    cases hfile

/-- In an open directory one comes to all of it. -/
theorem mem_pathsBelow_iff_of_isOpen (hfs : fs.IsTree) (hopen : fs.IsOpen dir) {q : Path} :
    q ∈ pathsBelow fs p dir ↔ ∃ names, q = p.append names ∧ fs.Leads dir suffix names :=
  mem_pathsBelow_iff.trans <| exists_congr fun _ => and_congr_right fun _ =>
    and_iff_left_of_imp fun hleads => hopen.reveals hfs hleads.isSome

/-- A directory stands for what one comes to below it and is named like a source, in order and each
once. In an open directory that is everything there, and these are the source files if no directory
has such a name. -/
theorem expand_directory (hfs : fs.IsTree) (hmap : fs.IsMap) (hlocate : fs.locate p = .ok dir)
    (hdir : fs.hasDirectory dir = true) :
    (HasLongPath fs p dir → expand fs p = .error .nameTooLong) ∧
    (¬HasLongPath fs p dir →
      ∃ paths, expand fs p = .ok paths ∧ paths.Nodup ∧
        (paths.Pairwise fun q r => Path.partsLe q.parts r.parts = true) ∧
        (∀ q, q ∈ paths ↔ ∃ names, q = p.append names ∧ fs.Leads dir suffix names ∧
          fs.reveals dir names = true) ∧
        (fs.IsOpen dir →
          (∀ q, q ∈ paths ↔ ∃ names, q = p.append names ∧ fs.Leads dir suffix names) ∧
          ((∀ names, fs.Leads dir suffix names → fs.hasDirectory (dir ++ names) = false) →
            ∀ q, q ∈ paths ↔ ∃ names, q = p.append names ∧ HasSource fs dir names))) ∧
    (fs.IsOpen dir → (HasLongPath fs p dir ↔ ∃ names, fs.hasDirectory (dir ++ names) = true ∧
      maxPath ≤ octetLength (p.append names).toText)) := by
  obtain ⟨hlong, hshort⟩ := expand_eq hfs hmap hlocate hdir
  refine ⟨hlong, fun h => ⟨_, hshort h, nodup_pathsBelow hmap p dir, pairwise_pathsBelow fs p dir,
    fun q => mem_pathsBelow_iff, fun hopen => ⟨fun q => mem_pathsBelow_iff_of_isOpen hfs hopen,
      fun hnone q => (mem_pathsBelow_iff_of_isOpen hfs hopen).trans ?_⟩⟩,
    hasLongPath_iff_of_isOpen hfs⟩
  exact exists_congr fun names => and_congr_right fun _ => leads_iff_hasSource hdir hnone names

/-- Sources at two depths, one of them with nothing in front of the suffix, next to another file. -/
theorem expand_directory_nested :
    let fs : FileSystem :=
      { entries := [(["d"], .directory 0o755), (["d", "a.gly"], .file [] 0o644),
          (["d", "s"], .directory 0o755), (["d", "s", ".gly"], .file [] 0o644),
          (["d", "s", "b.txt"], .file [] 0o644)] }
    let paths : List Path := [⟨0, ["d", "a.gly"]⟩, ⟨0, ["d", "s", ".gly"]⟩]
    expand fs ⟨0, ["d"]⟩ = .ok paths ∧
      ∀ q, q ∈ paths ↔ ∃ names, q = Path.append ⟨0, ["d"]⟩ names ∧ HasSource fs ["d"] names := by
  intro fs paths
  have hfs : fs.IsTree := by decide +kernel
  have hmap : fs.IsMap := by decide +kernel
  have hlocate : fs.locate ⟨0, ["d"]⟩ = .ok ["d"] := by decide +kernel
  have hdir : fs.hasDirectory ["d"] = true := by decide +kernel
  have hsorted : (fs.entries.map (·.1)).Pairwise fun l l' => Path.partsLe l l' = true := by
    decide +kernel
  have hbelow : fs.below ["d"] suffix = ([["d", "a.gly"], ["d", "s", ".gly"]] : List Location) := by
    rw [FileSystem.below_of_pairwise hsorted]
    decide +kernel
  have hshort : ¬HasLongPath fs ⟨0, ["d"]⟩ ["d"] := by
    rw [← any_directories_iff hfs hmap hlocate]
    decide +kernel
  have hexpand : expand fs ⟨0, ["d"]⟩ = .ok paths := by
    rw [(expand_eq hfs hmap hlocate hdir).2 hshort, pathsBelow, hbelow]
    decide +kernel
  have hopen : fs.IsOpen ["d"] := FileSystem.isOpen_of_entries (by decide +kernel) _
  have hnone : ∀ names, fs.Leads ["d"] suffix names →
      fs.hasDirectory (Text.ofString "d" :: names) = false := fun names hleads => by
    have all : ∀ l ∈ ([["d", "a.gly"], ["d", "s", ".gly"]] : List Location),
        fs.hasDirectory l = false := by decide +kernel
    exact all _ (hbelow ▸ FileSystem.mem_below_iff.mpr
      ⟨names, rfl, hleads, hopen.reveals hfs hleads.isSome⟩)
  obtain ⟨found, hfound, -, -, -, hall⟩ := (expand_directory hfs hmap hlocate hdir).2.1 hshort
  obtain rfl := Except.ok.inj (hexpand.symm.trans hfound)
  exact ⟨hexpand, (hall hopen).2 hnone⟩

/-- A directory that is named like a source is worked on as if it were one, and the run fails. -/
theorem exists_directory_expanded :
    let fs : FileSystem :=
      { entries := [(["d"], .directory 0o755), (["d", "x.gly"], .directory 0o755),
          (["d", "x.gly", "z.gly"], .file (Utf8.encode "3  4") 0o644),
          (["d", "y.gly"], .file (Utf8.encode "1  2") 0o644)] }
    fs.IsTree ∧ fs.IsMap ∧ fs.locate ⟨0, ["d"]⟩ = .ok ["d"] ∧
      expand fs ⟨0, ["d"]⟩ = .ok
        [⟨0, ["d", "x.gly"]⟩, ⟨0, ["d", "x.gly", "z.gly"]⟩, ⟨0, ["d", "y.gly"]⟩] ∧
      fs.isDirectory ⟨0, ["d", "x.gly"]⟩ = .ok true ∧
      ∃ answer, run {} ["d"] [] fs = .ok answer ∧ answer.code = 2 := by
  intro fs
  have hfs : fs.IsTree := by decide +kernel
  have hmap : fs.IsMap := by decide +kernel
  have hlocate : fs.locate ⟨0, ["d"]⟩ = .ok ["d"] := by decide +kernel
  have hshort : ¬HasLongPath fs ⟨0, ["d"]⟩ ["d"] := by
    rw [← any_directories_iff hfs hmap hlocate]
    decide +kernel
  have hsorted : (fs.entries.map (·.1)).Pairwise fun l l' => Path.partsLe l l' = true := by
    decide +kernel
  have hexpand : expand fs ⟨0, ["d"]⟩ = .ok
      [⟨0, ["d", "x.gly"]⟩, ⟨0, ["d", "x.gly", "z.gly"]⟩, ⟨0, ["d", "y.gly"]⟩] := by
    rw [(expand_eq hfs hmap hlocate (by decide +kernel)).2 hshort, pathsBelow,
      FileSystem.below_of_pairwise hsorted]
    decide +kernel
  have hargs : Arguments.parse ["d"] = .run { paths := ["d"] } := by decide +kernel
  have htarget : Path.ofText "d" = ⟨0, ["d"]⟩ := by decide +kernel
  have hexam : ∀ t ∈ targets { paths := ["d"] }, Examinable fs t :=
    List.forall_mem_singleton.mpr ⟨_, by rw [htarget]; exact hexpand⟩
  have hcode := (answer_runFiles hfs [] noFaults { paths := ["d"] } false ["d"]
    (level { paths := ["d"] } {})).1
  have hfiles : targetFiles fs "d" =
      [⟨0, ["d", "x.gly"]⟩, ⟨0, ["d", "x.gly", "z.gly"]⟩, ⟨0, ["d", "y.gly"]⟩] := by
    rw [targetFiles, htarget, hexpand]
  refine ⟨hfs, hmap, hlocate, hexpand, by decide +kernel, _,
    run_eq_answer hfs hargs (by decide +kernel) hexam, hcode.trans ?_⟩
  rw [List.map_singleton, targetCode, hfiles]
  decide +kernel

end GlyphFormat.Command
