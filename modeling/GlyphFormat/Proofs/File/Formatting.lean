import GlyphFormat.File.Source
import GlyphFormat.Proofs.File.AtomicWrite
import GlyphFormat.Proofs.Formatter.Contents

/-!
# Formatting files

Formatting a file is all or nothing (`formatFile_atomic`). Whatever fails, at every moment the file
holds what it held or its whole canonical text. If the work fails, everything is as it was. If it
succeeds, the file holds the canonical text, and nothing was written if that text was there already.

The failure is one to read or to write the file, or something is reported about it. The one
exception is a path that the system cannot be asked about. The file keeps its permission bits. Here
too is one exception: a write that is told that the file is not there gives it those of a new one
(`exists_formatFile_exceptions`).
-/

namespace GlyphFormat

namespace FileSystem

variable {fs : FileSystem} {fault : Option SystemError} {faults : FileFaults} {p : Path}
  {l : Location} {c : Octets} {m : Nat} {s t : Text}

/-! ## Reading -/

/-- The path leads to a readable file, and its octets are those of the text. -/
structure ReadsAs (fs : FileSystem) (p : Path) (l : Location) (c : Octets) (m : Nat) (s : Text) :
    Prop where
  located : fs.locate p = .ok l
  file : fs.get? l = some (.file c m)
  readable : ownerReads m = true
  text : Utf8.decode c = .ok s

theorem ReadsAs.read (h : fs.ReadsAs p l c m s) : fs.read p = .ok c := by
  rw [FileSystem.read, stat_eq_ok_iff.mpr ⟨l, h.located, h.file⟩]
  simp only [Node.mode, h.readable, Bool.not_true, Bool.false_eq_true, if_false]

theorem ReadsAs.readText (h : fs.ReadsAs p l c m s) : fs.readText none p = .ok s := by
  rw [FileSystem.readText, h.read]
  dsimp only
  rw [h.text]
  rfl

theorem exists_of_read (h : fs.read p = .ok c) :
    ∃ l m, fs.locate p = .ok l ∧ fs.get? l = some (.file c m) ∧ ownerReads m = true := by
  unfold FileSystem.read at h
  cases hstat : fs.stat p with
  | error f => rw [hstat] at h; cases h
  | ok n =>
      rw [hstat] at h
      dsimp only at h
      split at h
      · cases h
      · rename_i hreads
        cases n with
        | directory m => cases h
        | file c' m =>
            obtain rfl := Except.ok.inj h
            obtain ⟨l, hlocated, hfile⟩ := stat_eq_ok_iff.mp hstat
            exact ⟨l, m, hlocated, hfile, by simpa [Node.mode] using hreads⟩

/-- A text that is read is that of a file, and nothing disturbs the reading. -/
theorem exists_readsAs (h : fs.readText fault p = .ok s) :
    fault = none ∧ ∃ l c m, fs.ReadsAs p l c m s := by
  unfold FileSystem.readText at h
  cases hread : fs.read p with
  | error f => rw [hread] at h; cases h
  | ok c =>
      rw [hread] at h
      dsimp only at h
      cases fault with
      | some e => cases h
      | none =>
          cases htext : Utf8.decode c with
          | error f => rw [htext] at h; cases h
          | ok s' =>
              rw [htext] at h
              obtain rfl : s' = s := Except.ok.inj h
              obtain ⟨l, m, hlocated, hfile, hreadable⟩ := exists_of_read hread
              exact ⟨rfl, l, c, m, hlocated, hfile, hreadable, htext⟩

/-- The system answers about every path that it can be asked about. -/
theorem isSystem_of_read {f : AccessFault} (hp : p.refusal? = none)
    (h : fs.read p = .error f) : f.isSystem = true := by
  unfold FileSystem.read at h
  cases hstat : fs.stat p with
  | error g =>
      rw [hstat] at h
      obtain rfl := Except.error.inj h
      exact isSystem_of_stat hp hstat
  | ok n =>
      rw [hstat] at h
      dsimp only at h
      split at h
      · obtain rfl := Except.error.inj h
        rfl
      · cases n with
        | file c m => cases h
        | directory m =>
            obtain rfl := Except.error.inj h
            rfl

/-- About a path that it cannot be asked about it gives no answer. -/
theorem readText_of_refusal {f : AccessFault} (hp : p.refusal? = some f) :
    fs.readText fault p = .error (.access f) := by
  simp only [FileSystem.readText, FileSystem.read, stat, locate, hp]

theorem failure_of_isSystem {cause : IoCause} (h : cause.isSystem = true) (action : IoAction)
    (p : Path) : failure action p cause = .io ⟨action, p, cause⟩ := by
  cases cause with
  | access f => exact if_pos h
  | decode f | system e | other t => rfl

/-- What keeps a file from being read is a failure of that file. -/
theorem failure_of_readText {cause : IoCause} (hp : p.refusal? = none)
    (h : fs.readText fault p = .error cause) : failure .read p cause = .io ⟨.read, p, cause⟩ := by
  unfold FileSystem.readText at h
  cases hread : fs.read p with
  | error f =>
      rw [hread] at h
      obtain rfl := Except.error.inj h
      exact if_pos (isSystem_of_read hp hread)
  | ok c =>
      rw [hread] at h
      dsimp only at h
      cases fault with
      | some e =>
          obtain rfl := Except.error.inj h
          rfl
      | none =>
          cases htext : Utf8.decode c with
          | error f =>
              rw [htext] at h
              obtain rfl := Except.error.inj h
              rfl
          | ok s => rw [htext] at h; cases h

theorem failure_of_refusal {f : AccessFault} (hp : p.refusal? = some f) (action : IoAction) :
    failure action p (.access f) = .invalid f :=
  if_neg (Bool.eq_false_iff.mp (isSystem_of_refusal hp))

/-! ## What formatting a file does -/

theorem outcome_canonical (fs : FileSystem) (fault : Option SystemError) (p : Path) :
    (fs.canonical fault p).outcome = match fs.readText fault p with
    | .error cause => .error (failure .read p cause)
    | .ok s => match formatSource s (some p) with
      | .ok t => .ok (s, t)
      | .error e => .error (.format e) := by
  unfold canonical load
  cases fs.readText fault p <;> rfl

/-- A file that has no canonical text to be found is not touched. -/
theorem formatFileTraced_of_error {f : FileFailure}
    (h : (fs.canonical faults.read p).outcome = .error f) :
    (fs.formatFileTraced faults p).1.outcome = .error f ∧
      (fs.formatFileTraced faults p).2 = (fs, []) := by
  unfold formatFileTraced
  simp only [h, and_self]

/-- Nor is a file that has its canonical text. -/
theorem formatFileTraced_of_eq (h : (fs.canonical faults.read p).outcome = .ok (s, s)) :
    (fs.formatFileTraced faults p).1.outcome = .ok s ∧
      (fs.formatFileTraced faults p).2 = (fs, []) := by
  unfold formatFileTraced
  simp only [h, if_pos, and_self]

/-- A file is written where its path leads. -/
theorem writeTraced_of_locate (faults : AtomicWrite.Faults) (h : fs.locate p = .ok l) (t : Text) :
    fs.writeTraced faults p t = AtomicWrite.run faults ⟨l, Utf8.encode t⟩ fs := by
  rw [writeTraced, refusal?_of_locate h, resolve_of_locate h]

/-- Any other canonical text is written to the place of the file. -/
theorem formatFileTraced_of_ne (hs : fs.ReadsAs p l c m s)
    (hcanonical : (fs.canonical faults.read p).outcome = .ok (s, t)) (hne : t ≠ s) :
    let r := AtomicWrite.run faults.write ⟨l, Utf8.encode t⟩ fs
    (fs.formatFileTraced faults p).1.outcome =
        (match r.1 with
          | .ok () => .ok t
          | .error cause => .error (failure .write p cause)) ∧
      (fs.formatFileTraced faults p).2 = r.2 := by
  unfold formatFileTraced
  simp only [hcanonical, if_neg hne, writeTraced_of_locate faults.write hs.located]
  rcases AtomicWrite.run faults.write ⟨l, Utf8.encode t⟩ fs with ⟨_ | _, last, between⟩ <;>
    exact ⟨rfl, rfl⟩

/-! ## Atomicity -/

end FileSystem

/-- A failure that formatting the file may come to: it cannot be read or written, or something is
reported about it. -/
def FileFailure.IsOf (p : Path) : FileFailure → Prop
  | .io f => f.path = p ∧ (f.action = .read ∨ f.action = .write)
  | .format (.reported _) => True
  | .format (.unwritable _) | .invalid _ => False

namespace FileSystem

open AtomicWrite (hidesTarget newMode)

variable {fs : FileSystem} {faults : FileFaults} {p : Path}

theorem newMode_mod (faults : AtomicWrite.Faults) (m : Nat) :
    newMode faults m % permissionBits =
      if hidesTarget faults = true then 0o600 else m % permissionBits := by
  unfold newMode AtomicWrite.knownMode
  split
  · rfl
  · exact Nat.mod_mod m permissionBits

/-- What is there now is the entry as it was, or the whole canonical text of the file at the path.
Then the permission bits are those of the file, unless it was hidden from the write. -/
def OldOrNew (fs : FileSystem) (faults : FileFaults) (p : Path) (n : Node) (now : Option Node) :
    Prop :=
  now = some n ∨ ∃ l c m s t k, fs.ReadsAs p l c m s ∧ n = .file c m ∧
    formatSource s (some p) = .ok t ∧ now = some (.file (Utf8.encode t) k) ∧
    k % permissionBits = if hidesTarget faults.write = true then 0o600 else m % permissionBits

/-- What work on a file came to, the file system then and those in between, if the work is all or
nothing. -/
structure FormatsAtomically (fs : FileSystem) (faults : FileFaults) (p : Path)
    (r : FileWork Text × FileSystem × List FileSystem) : Prop where
  /-- At every moment each entry is there, old or new. -/
  moments : ∀ g ∈ r.2.2 ++ [r.2.1], ∀ l n, fs.get? l = some n → fs.OldOrNew faults p n (g.get? l)
  /-- A failure is one of the file, and everything is as it was. -/
  failed : ∀ f, r.1.outcome = .error f → f.IsOf p ∧ r.2.1 = fs
  /-- With success the file has its canonical text, which can be read back, and the permission bits
  that it had, unless it had to be written and was hidden from the write. Nothing else has changed,
  and nothing was written if nothing had to be. -/
  done : ∀ t, r.1.outcome = .ok t → ∃ l c m s k, fs.ReadsAs p l c m s ∧
    formatSource s (some p) = .ok t ∧ Utf8.decode (Utf8.encode t) = .ok t ∧
    r.2.1.get? l = some (.file (Utf8.encode t) k) ∧
    (k % permissionBits =
      if t ≠ s ∧ hidesTarget faults.write = true then 0o600 else m % permissionBits) ∧
    (∀ l', l' ≠ l → r.2.1.get? l' = fs.get? l') ∧ (t = s → r.2.1 = fs ∧ r.2.2 = [])

namespace FormatsAtomically

variable {l : Location} {c : Octets} {m : Nat} {s t : Text}

/-- Where nothing is written each entry is the old one. -/
theorem oldOrNew_of_kept {r : FileSystem × List FileSystem} (h : r = (fs, [])) :
    ∀ g ∈ r.2 ++ [r.1], ∀ l n, fs.get? l = some n → fs.OldOrNew faults p n (g.get? l) := by
  intro g hg l n hn
  rw [h] at hg
  obtain rfl := List.mem_singleton.mp hg
  exact Or.inl hn

/-- Where the file is written its entry is the new one. -/
theorem oldOrNew_replaced (hs : fs.ReadsAs p l c m s) (hformat : formatSource s (some p) = .ok t)
    {l' : Location} {n : Node} (hn : fs.get? l' = some n) :
    fs.OldOrNew faults p n
      ((AtomicWrite.replaced fs ⟨l, Utf8.encode t⟩ (newMode faults.write m)).get? l') := by
  rw [AtomicWrite.get?_replaced (ne_nil_of_file hs.file)]
  by_cases hl : l' = l
  · rw [hl, hs.file] at hn
    rw [if_pos hl]
    exact Or.inr ⟨l, c, m, s, t, _, hs, (Option.some.inj hn).symm, hformat, rfl, newMode_mod _ m⟩
  · rw [if_neg hl]
    exact Or.inl hn

/-- Work that fails before it writes. -/
theorem of_error {f : FileFailure} (hf : f.IsOf p)
    (h : (fs.canonical faults.read p).outcome = .error f) :
    fs.FormatsAtomically faults p (fs.formatFileTraced faults p) := by
  obtain ⟨hout, hrest⟩ := formatFileTraced_of_error h
  refine ⟨oldOrNew_of_kept hrest, fun f' hf' => ?_, fun t ht => ?_⟩
  · rw [hout] at hf'
    rw [hrest]
    obtain rfl := Except.error.inj hf'
    exact ⟨hf, rfl⟩
  · rw [hout] at ht
    cases ht

/-- Work on a file that has its canonical text. -/
theorem of_eq (hs : fs.ReadsAs p l c m s) (hformat : formatSource s (some p) = .ok s)
    (h : (fs.canonical faults.read p).outcome = .ok (s, s)) :
    fs.FormatsAtomically faults p (fs.formatFileTraced faults p) := by
  obtain ⟨hout, hrest⟩ := formatFileTraced_of_eq h
  refine ⟨oldOrNew_of_kept hrest, fun f hf => ?_, fun t ht => ?_⟩
  · rw [hout] at hf
    cases hf
  · rw [hout] at ht
    obtain rfl := Except.ok.inj ht
    obtain ⟨-, hencode⟩ := Utf8.encode_of_decode hs.text
    rw [hrest, hencode]
    exact ⟨l, c, m, s, m, hs, hformat, hs.text, hs.file, (if_neg fun h => h.1 rfl).symm,
      fun _ _ => rfl, fun _ => ⟨rfl, rfl⟩⟩

/-- Work that writes. -/
theorem of_ne (hfs : fs.IsTree) (hs : fs.ReadsAs p l c m s)
    (hformat : formatSource s (some p) = .ok t)
    (h : (fs.canonical faults.read p).outcome = .ok (s, t)) (hne : t ≠ s) :
    fs.FormatsAtomically faults p (fs.formatFileTraced faults p) := by
  obtain ⟨hout, hrest⟩ := formatFileTraced_of_ne hs h hne
  have hrun := AtomicWrite.run_outcome (j := ⟨l, Utf8.encode t⟩) faults.write hfs hs.file
  have hbetween : ∀ g ∈ (AtomicWrite.run faults.write ⟨l, Utf8.encode t⟩ fs).2.2, ∀ l' n,
      fs.get? l' = some n → fs.OldOrNew faults p n (g.get? l') :=
    fun g hg l' n hn => Or.inl ((hrun.between g hg).get? hn)
  cases hresult : (AtomicWrite.run faults.write ⟨l, Utf8.encode t⟩ fs).1 with
  | error cause =>
      obtain ⟨hlast, hsystem⟩ := hrun.error cause hresult
      rw [hresult] at hout
      refine ⟨fun g hg l' n hn => ?_, fun f hf => ?_, fun t' ht' => ?_⟩
      · rw [hrest, hlast] at hg
        rcases List.mem_append.mp hg with hg | hg
        · exact hbetween g hg l' n hn
        · obtain rfl := List.mem_singleton.mp hg
          exact Or.inl hn
      · rw [hout] at hf
        obtain rfl := Except.error.inj hf
        rw [failure_of_isSystem hsystem, hrest]
        exact ⟨⟨rfl, Or.inr rfl⟩, hlast⟩
      · rw [hout] at ht'
        cases ht'
  | ok _ =>
      have hlast := hrun.ok hresult
      have hget : ∀ l', (AtomicWrite.replaced fs ⟨l, Utf8.encode t⟩ _).get? l' =
          if l' = l then some (.file (Utf8.encode t) _) else fs.get? l' :=
        AtomicWrite.get?_replaced (ne_nil_of_file hs.file) (newMode faults.write m)
      rw [hresult] at hout
      refine ⟨fun g hg l' n hn => ?_, fun f hf => ?_, fun t' ht' => ?_⟩
      · rw [hrest, hlast] at hg
        rcases List.mem_append.mp hg with hg | hg
        · exact hbetween g hg l' n hn
        · obtain rfl := List.mem_singleton.mp hg
          exact oldOrNew_replaced hs hformat hn
      · rw [hout] at hf
        cases hf
      · rw [hout] at ht'
        obtain rfl := Except.ok.inj ht'
        rw [hrest, hlast]
        refine ⟨l, c, m, s, _, hs, hformat, Octets.decode_encode_formatSource hs.text hformat,
          (hget l).trans (if_pos rfl), ?_, fun l' hl' => ?_, fun heq => absurd heq hne⟩
        · simp only [newMode_mod, ne_eq, hne, not_false_eq_true, true_and]
        · exact (hget l').trans (if_neg hl')

end FormatsAtomically

/-- Formatting a file is all or nothing, whatever the system lets fail. A path that the system
cannot be asked about fails as such. -/
theorem formatFile_atomic (hfs : fs.IsTree) (faults : FileFaults) (p : Path) :
    (∀ f, p.refusal? = some f → (fs.formatFileTraced faults p).1.outcome = .error (.invalid f) ∧
      (fs.formatFileTraced faults p).2 = (fs, [])) ∧
    (p.refusal? = none → fs.FormatsAtomically faults p (fs.formatFileTraced faults p)) := by
  have hcanonical := outcome_canonical fs faults.read p
  refine ⟨fun f hf => ?_, fun hp => ?_⟩
  · rw [readText_of_refusal hf] at hcanonical
    dsimp only at hcanonical
    rw [failure_of_refusal hf] at hcanonical
    exact formatFileTraced_of_error hcanonical
  cases hread : fs.readText faults.read p with
  | error cause =>
      rw [hread] at hcanonical
      dsimp only at hcanonical
      rw [failure_of_readText hp hread] at hcanonical
      refine .of_error ?_ hcanonical
      exact ⟨rfl, Or.inl rfl⟩
  | ok s =>
      rw [hread] at hcanonical
      dsimp only at hcanonical
      cases hformat : formatSource s (some p) with
      | error e =>
          rw [hformat] at hcanonical
          obtain ⟨ds, rfl⟩ := reported_of_formatSource hformat
          refine .of_error ?_ hcanonical
          trivial
      | ok t =>
          rw [hformat] at hcanonical
          obtain ⟨-, l, c, m, hs⟩ := exists_readsAs hread
          by_cases hne : t = s
          · subst hne
            exact .of_eq hs hformat hcanonical
          · exact .of_ne hfs hs hformat hcanonical hne

/-- A file system where the content of a temporary file cannot be made safe. -/
theorem formatFile_atomic_sync :
    let fs : FileSystem := { entries := [(["a.gly"], .file (Utf8.encode "# a ") 0o644)] }
    let faults : FileFaults :=
      { write := fun s => if s = .sync then some ⟨5, "Input/output error"⟩ else none }
    let p := Path.ofText "a.gly"
    let r := fs.formatFileTraced faults p
    r.1.outcome = .error (.io ⟨.write, p, .system ⟨5, "Input/output error"⟩⟩) ∧ r.2.1 = fs ∧
      r.2.2.length = 6 := by
  intro fs faults p r
  have hatomic : fs.FormatsAtomically faults p r :=
    (formatFile_atomic (by decide +kernel) faults p).2 (by decide +kernel)
  have hout : r.1.outcome = .error (.io ⟨.write, p, .system ⟨5, "Input/output error"⟩⟩) := by
    decide +kernel
  exact ⟨hout, (hatomic.failed _ hout).2, by decide +kernel⟩

/-- The failure for a path with a surrogate is neither one of the file nor a report about it. And a
file that the write is told is not there loses its permission bits. -/
theorem exists_formatFile_exceptions :
    let fs : FileSystem := { entries := [(["a.gly"], .file (Utf8.encode "1  2") 0o644)] }
    let surrogate : CodePoint := ⟨0xD800, by decide⟩
    let p : Path := ⟨0, [surrogate :: ".gly"]⟩
    let f : FileFailure := .invalid (.unencodable ⟨0, 1, surrogate⟩)
    let hidden : FileFaults :=
      { write := fun s => if s = .find then some ⟨2, "No such file or directory"⟩ else none }
    let r := fs.formatFileTraced hidden (Path.ofText "a.gly")
    fs.IsTree ∧ p.hasNul = false ∧ (fs.formatFileTraced {} p).1.outcome = .error f ∧ ¬f.IsOf p ∧
      r.1.outcome = .ok "1 2\n" ∧
      r.2.1.get? ["a.gly"] = some (.file (Utf8.encode "1 2\n") 0o600) := by
  intro fs surrogate p f hidden r
  exact ⟨by decide +kernel, by decide +kernel, by decide +kernel, id, by decide +kernel,
    by decide +kernel⟩

end FileSystem

end GlyphFormat
