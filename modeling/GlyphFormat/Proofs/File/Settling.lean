import GlyphFormat.Proofs.File.Formatting

/-!
# Formatting files one after the other

Formatting a file puts the formatted content in the place of what it holds (`Node.formatted`), if
nothing fails and the file system lets it be replaced (`Undisturbed`), and changes nothing else.
Where paths lead and which files can be replaced stays the same. What fails is a matter of the file,
whichever path leads to it. So after any number of files each entry that was reached is as
formatting it once leaves it, and every other entry is as it was (`settles_formatAll`): neither the
order of the files nor their repetition matters.
-/

namespace GlyphFormat

open AtomicWrite (Allows newMode)

namespace FileSystem

/-- The permission bits alone decide whether the owner may read. -/
theorem ownerReads_mod (m : Nat) : ownerReads (m % permissionBits) = ownerReads m := by
  rw [ownerReads, ownerReads, show permissionBits = 2 ^ 9 from rfl, Nat.testBit_mod_two_pow]
  rfl

/-- What could be read can be read when it has been written. -/
theorem ownerReads_newMode {m : Nat} (hm : ownerReads m = true) (faults : AtomicWrite.Faults) :
    ownerReads (newMode faults m) = true := by
  unfold newMode AtomicWrite.knownMode
  split
  · rfl
  · exact (ownerReads_mod m).trans hm

end FileSystem

/-! ## Formatted entries -/

/-- The entry with its content formatted, where it is a file that can be read. -/
def Node.formatted (faults : AtomicWrite.Faults) : Node → Node
  | .file c m =>
    if FileSystem.ownerReads m && c.formatted ≠ c then .file c.formatted (newMode faults m)
    else .file c m
  | n => n

namespace Node

variable {faults : AtomicWrite.Faults} {c : Octets} {m : Nat} {s t : Text} {path : Option Path}

theorem formatted_formatted (n : Node) :
    (n.formatted faults).formatted faults = n.formatted faults := by
  cases n with
  | directory m => rfl
  | file c m =>
      rw [formatted]
      split
      · rw [formatted, Octets.formatted_formatted]
        simp
      · rename_i h
        rw [formatted, if_neg h]

/-- A file that can be read keeps its permission bits where nothing fails. -/
theorem formatted_file (hm : FileSystem.ownerReads m = true) (c : Octets) :
    ∃ m', (Node.file c m).formatted AtomicWrite.noFaults = .file c.formatted m' ∧
      m' % FileSystem.permissionBits = m % FileSystem.permissionBits := by
  rw [formatted, hm, Bool.true_and]
  by_cases hc : c.formatted = c
  · rw [hc, if_neg (by simp)]
    exact ⟨m, rfl, rfl⟩
  · rw [if_pos (decide_eq_true hc)]
    exact ⟨_, rfl, Nat.mod_mod _ _⟩

/-- A file that has a canonical text and can be read is formatted to hold that text. -/
theorem formatted_of_formatSource (hm : FileSystem.ownerReads m = true)
    (hs : Utf8.decode c = .ok s) (h : formatSource s path = .ok t) :
    (Node.file c m).formatted faults =
      if t = s then .file c m else .file (Utf8.encode t) (newMode faults m) := by
  rw [formatted, Octets.formatted_of_decode hs h, hm, Bool.true_and]
  by_cases hne : t = s
  · rw [if_pos hne, hne, (Utf8.encode_of_decode hs).2]
    simp
  · have hchanged : Utf8.encode t ≠ c := fun heq => by
      have hback := Octets.decode_encode_formatSource hs h
      rw [heq, hs] at hback
      exact hne (Except.ok.inj hback).symm
    rw [if_neg hne, if_pos (decide_eq_true hchanged)]

/-- Any other entry stays. -/
theorem formatted_eq_self (path : Option Path) {n : Node}
    (h : ∀ c m s t, n = .file c m → FileSystem.ownerReads m = true → Utf8.decode c = .ok s →
      formatSource s path = .ok t → t = s) : n.formatted faults = n := by
  cases n with
  | directory m => rfl
  | file c m =>
      by_cases hm : FileSystem.ownerReads m = true
      · cases hs : Utf8.decode c with
        | error f =>
            rw [formatted, Octets.formatted_of_undecodable hs]
            simp
        | ok s =>
            cases hformat : formatSource s path with
            | error e =>
                rw [formatted, Octets.formatted_of_error hs hformat]
                simp
            | ok t =>
                rw [formatted_of_formatSource hm hs hformat,
                  if_pos (h c m s t rfl hm hs hformat)]
      · rw [formatted, Bool.eq_false_iff.mpr hm]
        rfl

end Node

namespace FileSystem

variable {fs fs' fs'' : FileSystem} {faults : Location → FileFaults} {p : Path}
  {ps qs : List Path} {l : Location}

/-! ## Settled files -/

/-- One of the paths leads to the location. -/
def Reaches (fs : FileSystem) (ps : List Path) (l : Location) : Prop :=
  ∃ p ∈ ps, fs.locate p = .ok l

/-- Nothing but the file itself keeps the one at the location from being formatted. -/
def Undisturbed (fs : FileSystem) (faults : FileFaults) (l : Location) : Prop :=
  faults.read = none ∧ Allows fs faults.write l

/-- The second file system is what the first becomes when the files at the paths are formatted. -/
structure Settles (faults : Location → FileFaults) (fs : FileSystem) (ps : List Path)
    (fs' : FileSystem) : Prop where
  shape : SameShape fs fs'
  settled : ∀ l, fs.Reaches ps l → fs.Undisturbed (faults l) l →
    fs'.get? l = (fs.get? l).map (Node.formatted (faults l).write)
  kept : ∀ l, ¬(fs.Reaches ps l ∧ fs.Undisturbed (faults l) l) → fs'.get? l = fs.get? l

/-! ### One file -/

/-- A write passes where the file system allows it, whatever is written. -/
theorem write_eq_ok_iff {faults : AtomicWrite.Faults} {c : Octets} {m : Nat} (hfs : fs.IsTree)
    (hl : fs.locate p = .ok l) (hfile : fs.get? l = some (.file c m)) (t : Text) :
    (fs.write faults p t).1 = .ok () ↔ Allows fs faults l := by
  rw [write, writeTraced_of_locate faults hl]
  exact AtomicWrite.run_ok_iff (j := ⟨l, Utf8.encode t⟩) hfs hfile

/-- The file at a path is replaced if it has another canonical text and nothing keeps it from
that. -/
theorem formatFile_eq_replaced {faults : FileFaults} {c : Octets} {m : Nat} {s t : Text}
    (hfs : fs.IsTree) (hs : fs.ReadsAs p l c m s) (hformat : formatSource s (some p) = .ok t)
    (hne : t ≠ s) (h : fs.Undisturbed faults l) : (fs.formatFile faults p).2 =
      AtomicWrite.replaced fs ⟨l, Utf8.encode t⟩ (newMode faults.write m) := by
  have hcanonical : (fs.canonical faults.read p).outcome = .ok (s, t) := by
    rw [outcome_canonical, h.1, hs.readText]
    dsimp only
    rw [hformat]
  have hrest := (formatFileTraced_of_ne hs hcanonical hne).2
  have hrun := AtomicWrite.run_outcome (j := ⟨l, Utf8.encode t⟩) faults.write hfs hs.file
  show (fs.formatFileTraced faults p).2.1 = _
  rw [hrest]
  exact hrun.ok ((AtomicWrite.run_ok_iff hfs hs.file).mpr h.2)

/-- Else nothing changes. -/
theorem formatFile_eq_self {faults : FileFaults} (hfs : fs.IsTree)
    (h : ∀ l c m s t, fs.ReadsAs p l c m s → formatSource s (some p) = .ok t → t ≠ s →
      ¬fs.Undisturbed faults l) : (fs.formatFile faults p).2 = fs := by
  show (fs.formatFileTraced faults p).2.1 = fs
  have hcanonical := outcome_canonical fs faults.read p
  cases hread : fs.readText faults.read p with
  | error cause =>
      rw [hread] at hcanonical
      rw [(formatFileTraced_of_error hcanonical).2]
  | ok s =>
      obtain ⟨hnone, l, c, m, hs⟩ := exists_readsAs hread
      rw [hread] at hcanonical
      dsimp only at hcanonical
      cases hformat : formatSource s (some p) with
      | error e =>
          rw [hformat] at hcanonical
          rw [(formatFileTraced_of_error hcanonical).2]
      | ok t =>
          rw [hformat] at hcanonical
          by_cases hne : t = s
          · subst hne
            rw [(formatFileTraced_of_eq hcanonical).2]
          · have hrun := AtomicWrite.run_outcome (j := ⟨l, Utf8.encode t⟩) faults.write hfs hs.file
            rw [(formatFileTraced_of_ne hs hcanonical hne).2]
            cases hresult : (AtomicWrite.run faults.write ⟨l, Utf8.encode t⟩ fs).1 with
            | error cause => exact (hrun.error cause hresult).1
            | ok _ =>
                exact absurd ⟨hnone, (AtomicWrite.run_ok_iff hfs hs.file).mp hresult⟩
                  (h l c m s t hs hformat hne)

theorem settles_formatFile (hfs : fs.IsTree) (faults : Location → FileFaults) (p : Path) :
    Settles faults fs [p] (fs.formatFile (faults (fs.resolve p)) p).2 := by
  by_cases h : ∃ l c m s t, fs.ReadsAs p l c m s ∧ formatSource s (some p) = .ok t ∧ t ≠ s ∧
      fs.Undisturbed (faults l) l
  · obtain ⟨l, c, m, s, t, hs, hformat, hne, hclear⟩ := h
    have hroot := ne_nil_of_file hs.file
    have hreplaced : (fs.formatFile (faults (fs.resolve p)) p).2 =
        AtomicWrite.replaced fs ⟨l, Utf8.encode t⟩ (newMode (faults l).write m) := by
      rw [resolve_of_locate hs.located]
      exact formatFile_eq_replaced hfs hs hformat hne hclear
    have hget : ∀ l', (fs.formatFile (faults (fs.resolve p)) p).2.get? l' =
        if l' = l then some (.file (Utf8.encode t) (newMode (faults l).write m))
        else fs.get? l' := by
      rw [hreplaced]
      exact AtomicWrite.get?_replaced hroot _
    refine ⟨?_, fun l' hl' _ => ?_, fun l' hl' => ?_⟩
    · rw [hreplaced]
      exact sameShape_set hs.file hroot (.file (Utf8.encode t) _) rfl _
    · obtain ⟨q, hq, hlocated⟩ := hl'
      obtain rfl := List.mem_singleton.mp hq
      obtain rfl := Except.ok.inj (hs.located.symm.trans hlocated)
      rw [hget, if_pos rfl, hs.file, Option.map_some,
        Node.formatted_of_formatSource hs.readable hs.text hformat, if_neg hne]
    · rw [hget, if_neg]
      rintro rfl
      exact hl' ⟨⟨p, List.mem_singleton_self p, hs.located⟩, hclear⟩
  · have hself : (fs.formatFile (faults (fs.resolve p)) p).2 = fs :=
      formatFile_eq_self hfs fun l c m s t hs hformat hne hclear => by
        rw [resolve_of_locate hs.located] at hclear
        exact h ⟨l, c, m, s, t, hs, hformat, hne, hclear⟩
    rw [hself]
    refine ⟨.refl fs, fun l hl hclear => ?_, fun l _ => rfl⟩
    obtain ⟨q, hq, hlocated⟩ := hl
    obtain rfl := List.mem_singleton.mp hq
    cases hn : fs.get? l with
    | none => rfl
    | some n =>
        rw [Option.map_some, Node.formatted_eq_self (some q)]
        rintro c m s t rfl hm hs hformat
        by_contra hne
        exact h ⟨l, c, m, s, t, ⟨hlocated, hn, hm, hs⟩, hformat, hne, hclear⟩

/-! ### Many files -/

theorem Reaches.congr (h : SameShape fs fs') : fs'.Reaches ps l ↔ fs.Reaches ps l := by
  simp only [Reaches, h.locate]

theorem Undisturbed.congr {faults : FileFaults} (h : SameShape fs fs') :
    fs'.Undisturbed faults l ↔ fs.Undisturbed faults l :=
  and_congr_right fun _ => Allows.congr h

theorem reaches_append : fs.Reaches (ps ++ qs) l ↔ fs.Reaches ps l ∨ fs.Reaches qs l := by
  simp only [Reaches, List.mem_append, or_and_right, exists_or]

namespace Settles

theorem refl (faults : Location → FileFaults) (fs : FileSystem) : Settles faults fs [] fs :=
  ⟨.refl fs, fun _ ⟨_, hp, _⟩ => absurd hp List.not_mem_nil, fun _ _ => rfl⟩

/-- An entry is as it was, or formatted where nothing keeps it from that. -/
theorem cases (h : Settles faults fs ps fs') (l : Location) :
    fs'.get? l = fs.get? l ∨ fs.Undisturbed (faults l) l ∧
      fs'.get? l = (fs.get? l).map (Node.formatted (faults l).write) := by
  by_cases hl : fs.Reaches ps l ∧ fs.Undisturbed (faults l) l
  · exact Or.inr ⟨hl.2, h.settled l hl.1 hl.2⟩
  · exact Or.inl (h.kept l hl)

/-- What is formatted already is not formatted any further. -/
theorem map_formatted (h : Settles faults fs ps fs') (l : Location) :
    (fs'.get? l).map (Node.formatted (faults l).write) =
      (fs.get? l).map (Node.formatted (faults l).write) := by
  rcases h.cases l with heq | ⟨-, heq⟩
  · rw [heq]
  · rw [heq, Option.map_map]
    exact congrArg (Option.map · (fs.get? l)) (funext Node.formatted_formatted)

theorem append (h : Settles faults fs ps fs') (h' : Settles faults fs' qs fs'') :
    Settles faults fs (ps ++ qs) fs'' := by
  have hreaches : ∀ l, fs'.Reaches qs l ↔ fs.Reaches qs l := fun l => Reaches.congr h.shape
  have hclear : ∀ l, fs'.Undisturbed (faults l) l ↔ fs.Undisturbed (faults l) l :=
    fun l => Undisturbed.congr h.shape
  refine ⟨h.shape.trans h'.shape, fun l hl hal => ?_, fun l hl => ?_⟩
  · by_cases hqs : fs.Reaches qs l
    · rw [h'.settled l ((hreaches l).mpr hqs) ((hclear l).mpr hal), h.map_formatted]
    · rw [h'.kept l fun hq => hqs ((hreaches l).mp hq.1)]
      exact h.settled l ((reaches_append.mp hl).resolve_right hqs) hal
  · rw [h'.kept l fun hq => hl ⟨reaches_append.mpr (Or.inr ((hreaches l).mp hq.1)),
      (hclear l).mp hq.2⟩]
    exact h.kept l fun hp => hl ⟨reaches_append.mpr (Or.inl hp.1), hp.2⟩

/-- A source stays, or becomes its canonical text where nothing keeps it from that. -/
theorem readsAs {c : Octets} {m : Nat} {s : Text} (h : Settles faults fs ps fs')
    (hs : fs.ReadsAs p l c m s) : fs'.ReadsAs p l c m s ∨
      ∃ t, formatSource s (some p) = .ok t ∧ t ≠ s ∧ fs.Undisturbed (faults l) l ∧
        fs'.ReadsAs p l (Utf8.encode t) (newMode (faults l).write m) t := by
  have hlocated : fs'.locate p = .ok l := (h.shape.locate p).trans hs.located
  have hstays : fs'.get? l = some (.file c m) → fs'.ReadsAs p l c m s :=
    fun hfile => ⟨hlocated, hfile, hs.readable, hs.text⟩
  rcases h.cases l with heq | ⟨hclear, heq⟩
  · exact Or.inl (hstays (heq.trans hs.file))
  · rw [hs.file, Option.map_some] at heq
    cases hformat : formatSource s (some p) with
    | error e =>
        refine Or.inl (hstays (heq.trans ?_))
        rw [Node.formatted_eq_self (some p)]
        rintro c' m' s' t heq' - hs' hformat'
        obtain ⟨rfl, rfl⟩ := Node.file.inj heq'
        obtain rfl := Except.ok.inj (hs.text.symm.trans hs')
        rw [hformat] at hformat'
        cases hformat'
    | ok t =>
        rw [Node.formatted_of_formatSource hs.readable hs.text hformat] at heq
        by_cases hne : t = s
        · rw [if_pos hne] at heq
          exact Or.inl (hstays heq)
        · rw [if_neg hne] at heq
          exact Or.inr ⟨t, rfl, hne, hclear, hlocated, heq, ownerReads_newMode hs.readable _,
            Octets.decode_encode_formatSource hs.text hformat⟩

/-- What was formatted has its canonical text. -/
theorem eq_of_formatSource {c : Octets} {m : Nat} {s t : Text} (h : Settles faults fs ps fs')
    (hp : p ∈ ps) (hclear : fs.Undisturbed (faults l) l) (hs : fs'.ReadsAs p l c m s)
    (hformat : formatSource s (some p) = .ok t) : t = s := by
  have hreaches : fs.Reaches ps l := ⟨p, hp, (h.shape.locate p).symm.trans hs.located⟩
  have hsettled : some ((Node.file c m).formatted (faults l).write) = some (.file c m) := by
    rw [← Option.map_some, ← hs.file, h.map_formatted, h.settled l hreaches hclear]
  rw [Node.formatted_of_formatSource hs.readable hs.text hformat, Option.some.injEq] at hsettled
  by_contra hne
  rw [if_neg hne] at hsettled
  have hback := Octets.decode_encode_formatSource hs.text hformat
  rw [(Node.file.inj hsettled).1, hs.text] at hback
  exact hne (Except.ok.inj hback).symm

/-- No file becomes a source that was none. -/
theorem exists_readText {fault : Option SystemError} {s' : Text} (h : Settles faults fs ps fs')
    (hs' : fs'.readText fault p = .ok s') : ∃ s, fs.readText fault p = .ok s := by
  obtain ⟨rfl, l, c', m', hs'⟩ := exists_readsAs hs'
  have hlocated : fs.locate p = .ok l := (h.shape.locate p).symm.trans hs'.located
  by_contra hnone
  have hfile : fs.get? l = some (.file c' m') := by
    rcases h.cases l with heq | ⟨-, heq⟩
    · rw [← heq, hs'.file]
    · rw [hs'.file] at heq
      obtain ⟨n, hn, hformatted⟩ := Option.map_eq_some_iff.mp heq.symm
      rw [hn, ← hformatted, Node.formatted_eq_self none]
      rintro c m s t rfl hm hs -
      exact absurd ⟨s, ReadsAs.readText ⟨hlocated, hn, hm, hs⟩⟩ hnone
  exact hnone ⟨s', ReadsAs.readText ⟨hlocated, hfile, hs'.readable, hs'.text⟩⟩

/-- What becomes of the entries depends on which of them are reached alone. -/
theorem get?_eq (h : Settles faults fs ps fs') (h' : Settles faults fs qs fs'')
    (hsame : ∀ l, fs.Reaches ps l ↔ fs.Reaches qs l) (l : Location) :
    fs''.get? l = fs'.get? l := by
  by_cases hl : fs.Reaches ps l ∧ fs.Undisturbed (faults l) l
  · rw [h.settled l hl.1 hl.2, h'.settled l ((hsame l).mp hl.1) hl.2]
  · rw [h.kept l hl, h'.kept l fun hq => hl ⟨(hsame l).mpr hq.1, hq.2⟩]

end Settles

/-- By induction on the paths: each file is formatted in a system of the same shape. -/
theorem settles_formatAll (hfs : fs.IsTree) (faults : Location → FileFaults) (ps : List Path) :
    Settles faults fs ps
      (ps.foldl (fun fs p => (fs.formatFile (faults (fs.resolve p)) p).2) fs) := by
  induction ps generalizing fs with
  | nil => exact .refl faults fs
  | cons p ps ih =>
      have hfirst := settles_formatFile hfs faults p
      exact hfirst.append (ih (hfirst.shape.isTree hfs))

end FileSystem

end GlyphFormat
