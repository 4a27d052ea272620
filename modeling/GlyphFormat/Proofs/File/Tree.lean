import GlyphFormat.File.System
import Mathlib.Data.List.Basic
import Mathlib.Data.List.Induction

/-!
# Trees of files

In a file system that is a tree (`FileSystem.IsTree`) every entry has a proper name and stands in a
directory. There the way to an entry by its full path leads to that entry, unless a directory on the
way cannot be gone through (`IsTree.eq_of_walk`, `IsTree.eq_denied_of_walk`), and a path that can be
followed leads where its components say (`resolve_of_locate`).

Where a path leads depends on which entries are there, which of them are directories and what these
allow, but not on the files. Systems that differ in the files alone have the same shape
(`SameShape`), and all paths lead to the same places in them.
-/

namespace GlyphFormat

namespace FileSystem

variable {fs fs' : FileSystem} {l l' : Location} {n n' : Node} {es : List (Location × Node)}

/-! ## Entries -/

theorem get?_of_ne_nil (h : l ≠ []) : fs.get? l = fs.entries.lookup l := if_neg h

theorem ne_nil_of_get?_eq_none (h : fs.get? l = none) : l ≠ [] := by
  rintro rfl
  cases h

/-- The root is a directory. -/
theorem ne_nil_of_file {c : Octets} {m : Nat} (h : fs.get? l = some (.file c m)) : l ≠ [] := by
  rintro rfl
  cases h

theorem lookup_cons_eq (k : Location) (n : Node) (l : Location) :
    ((k, n) :: es).lookup l = if l = k then some n else es.lookup l := by
  rw [List.lookup_cons]
  by_cases h : l = k
  · rw [if_pos h, beq_iff_eq.mpr h]
  · rw [if_neg h, beq_false_of_ne h]

theorem lookup_insertEntry (l : Location) (n : Node) (es : List (Location × Node))
    (l' : Location) :
    (insertEntry l n es).lookup l' = if l' = l then some n else es.lookup l' := by
  induction es with
  | nil => exact lookup_cons_eq l n l'
  | cons e es ih =>
      obtain ⟨k, v⟩ := e
      unfold insertEntry
      dsimp only
      split
      · rename_i hk
        subst hk
        rw [lookup_cons_eq, lookup_cons_eq]
        split <;> rfl
      · rename_i hk
        rw [lookup_cons_eq, lookup_cons_eq, ih]
        split
        · rename_i hl'
          rw [if_neg (hl' ▸ hk)]
        · rfl

theorem get?_set (hl : l ≠ []) (l' : Location) :
    (fs.set l n).get? l' = if l' = l then some n else fs.get? l' := by
  by_cases h : l' = []
  · subst h
    rw [if_neg hl.symm]
    rfl
  · rw [get?_of_ne_nil h, get?_of_ne_nil h, set, lookup_insertEntry]

theorem get?_set_self (hl : l ≠ []) : (fs.set l n).get? l = some n := by
  rw [get?_set hl, if_pos rfl]

theorem get?_set_of_ne (hl : l ≠ []) (h : l' ≠ l) : (fs.set l n).get? l' = fs.get? l' := by
  rw [get?_set hl, if_neg h]

theorem set_set : (fs.set l n).set l n' = fs.set l n' := by
  have hentries : ∀ es : List (Location × Node),
      insertEntry l n' (insertEntry l n es) = insertEntry l n' es := by
    intro es
    induction es with
    | nil => exact if_pos rfl
    | cons e es ih =>
        by_cases hl : e.1 = l
        · rw [insertEntry, if_pos hl, insertEntry, insertEntry, if_pos hl, if_pos rfl]
        · rw [insertEntry, if_neg hl, insertEntry, insertEntry, if_neg hl, if_neg hl, ih]
  rw [set, set, set, hentries]

/-! ### Taking entries away -/

theorem erase_set_self : (fs.set l n).erase l = fs.erase l := by
  have hentries : ∀ es : List (Location × Node),
      (insertEntry l n es).filter (·.1 ≠ l) = es.filter (·.1 ≠ l) := by
    intro es
    induction es with
    | nil => simp [insertEntry]
    | cons e es ih =>
        by_cases hl : e.1 = l
        · rw [insertEntry, if_pos hl, List.filter_cons_of_neg (by simp),
            List.filter_cons_of_neg (by simpa using hl)]
        · rw [insertEntry, if_neg hl, List.filter_cons_of_pos (by simpa using hl), ih,
            List.filter_cons_of_pos (by simpa using hl)]
  rw [erase, set, erase, hentries]

theorem erase_set_of_ne (h : l' ≠ l) : (fs.set l' n).erase l = (fs.erase l).set l' n := by
  have hentries : ∀ es : List (Location × Node),
      (insertEntry l' n es).filter (·.1 ≠ l) = insertEntry l' n (es.filter (·.1 ≠ l)) := by
    intro es
    induction es with
    | nil => simp [insertEntry, h]
    | cons e es ih =>
        by_cases hl : e.1 = l
        · have hl' : e.1 ≠ l' := fun he => h (he.symm.trans hl)
          rw [insertEntry, if_neg hl', List.filter_cons_of_neg (by simpa using hl),
            List.filter_cons_of_neg (by simpa using hl), ih]
        · rw [List.filter_cons_of_pos (by simpa using hl)]
          by_cases hl' : e.1 = l'
          · rw [insertEntry, if_pos hl', insertEntry, if_pos hl',
              List.filter_cons_of_pos (by simpa using h)]
          · rw [insertEntry, if_neg hl', insertEntry, if_neg hl',
              List.filter_cons_of_pos (by simpa using hl), ih]
  rw [erase, set, erase, set, hentries]

/-- Where nothing is, nothing is taken away. -/
theorem erase_eq_self (h : fs.get? l = none) : fs.erase l = fs := by
  rw [get?_of_ne_nil (ne_nil_of_get?_eq_none h), List.lookup_eq_none_iff] at h
  have hentries : fs.entries.filter (·.1 ≠ l) = fs.entries :=
    List.filter_eq_self.mpr fun e he => decide_eq_true fun hl => by
      have hne := h e he
      rw [hl, bne_self_eq_false] at hne
      cases hne
  rw [erase, hentries]

/-! ## Trees -/

/-- A name that an entry may have: it stands for no other directory, is no path, and is not too
long. -/
def IsEntryName (name : Text) : Prop :=
  name ≠ [] ∧ name ≠ Path.here ∧ name ≠ Path.up ∧ (∀ c ∈ name, c ≠ '/' ∧ c ≠ '\x00') ∧
    octetLength name ≤ maxName

instance (name : Text) : Decidable (IsEntryName name) :=
  inferInstanceAs (Decidable (_ ∧ _ ∧ _ ∧ _ ∧ _))

/-- Something is at the location, and it is a directory. -/
def hasDirectory (fs : FileSystem) (l : Location) : Bool := (fs.get? l).any Node.isDirectory

/-- Every entry has a proper name and stands in a directory, and paths start in one. -/
structure IsTree (fs : FileSystem) : Prop where
  entries : ∀ e ∈ fs.entries, e.1 ≠ [] ∧ IsEntryName (e.1.getLastD []) ∧
    fs.hasDirectory e.1.dropLast = true
  start : fs.hasDirectory fs.start = true

instance (fs : FileSystem) : Decidable fs.IsTree :=
  decidable_of_iff (_ ∧ _) ⟨fun h => ⟨h.1, h.2⟩, fun h => ⟨h.entries, h.start⟩⟩

theorem hasDirectory_iff : fs.hasDirectory l = true ↔ ∃ m, fs.get? l = some (.directory m) := by
  unfold hasDirectory
  cases fs.get? l with
  | none => exact ⟨nofun, nofun⟩
  | some n =>
      cases n with
      | file c m => exact ⟨nofun, nofun⟩
      | directory m => exact ⟨fun _ => ⟨m, rfl⟩, fun _ => rfl⟩

namespace IsTree

variable {name : Text} {rest : List Text}

/-- What is there and has a name is an entry of a directory. -/
theorem entry (hfs : fs.IsTree) (h : fs.get? (l ++ [name]) = some n) :
    IsEntryName name ∧ fs.hasDirectory l = true := by
  rw [get?_of_ne_nil (by simp)] at h
  obtain ⟨es, es', hes, -⟩ := List.lookup_eq_some_iff.mp h
  obtain ⟨-, hname, hdir⟩ := hfs.entries (l ++ [name], n) (by rw [hes]; simp)
  rw [List.getLastD_concat] at hname
  rw [List.dropLast_concat] at hdir
  exact ⟨hname, hdir⟩

/-- The names on the way to what is there are proper. -/
theorem isEntryName (hfs : fs.IsTree) (h : fs.get? l = some n) :
    ∀ name ∈ l, IsEntryName name := by
  induction l using List.reverseRecOn generalizing n with
  | nil => exact fun name hname => absurd hname List.not_mem_nil
  | append_singleton l name ih =>
      obtain ⟨hname, hdir⟩ := hfs.entry h
      obtain ⟨m, hm⟩ := hasDirectory_iff.mp hdir
      exact List.forall_mem_append.mpr ⟨ih hm, List.forall_mem_singleton.mpr hname⟩

/-- Directories stand on the way to what is there. -/
theorem hasDirectory (hfs : fs.IsTree) (h : fs.get? (l ++ rest) = some n) (hne : rest ≠ []) :
    fs.hasDirectory l = true := by
  induction rest using List.reverseRecOn generalizing n with
  | nil => exact absurd rfl hne
  | append_singleton rest name ih =>
      rw [← List.append_assoc] at h
      obtain ⟨-, hdir⟩ := hfs.entry h
      by_cases hnil : rest = []
      · rwa [hnil, List.append_nil] at hdir
      · obtain ⟨m, hm⟩ := hasDirectory_iff.mp hdir
        exact ih hm hnil

end IsTree

/-! ## Ways -/

/-- A proper name leads one further down. -/
theorem next_eq {name : Text} (h : IsEntryName name) : next l name = l ++ [name] := by
  obtain ⟨-, hhere, hup, -, -⟩ := h
  rw [next, if_neg hup, if_neg hhere]

/-- Where a component leads does not depend on what it goes over. -/
theorem eq_next_of_enter {name : Text} (h : fs.enter l name = .ok l') : l' = next l name := by
  unfold enter at h
  repeat' split at h
  all_goals first
    | exact (Except.ok.inj h).symm
    | cases h

/-- Nor does it for many components. -/
theorem eq_foldl_of_walk {names : List Text} (h : fs.walk l names = .ok l') :
    l' = names.foldl next l := by
  induction names generalizing l with
  | nil => exact (Except.ok.inj h).symm
  | cons name names ih =>
      rw [walk] at h
      cases henter : fs.enter l name with
      | error f => rw [henter] at h; cases h
      | ok k =>
          rw [henter] at h
          rw [List.foldl_cons, ← eq_next_of_enter henter]
          exact ih h

/-- Proper names lead down. -/
theorem foldl_next_eq {names : List Text} (hnames : ∀ name ∈ names, IsEntryName name) :
    names.foldl next l = l ++ names := by
  induction names generalizing l with
  | nil => exact (List.append_nil l).symm
  | cons name names ih =>
      obtain ⟨hname, hrest⟩ := List.forall_mem_cons.mp hnames
      rw [List.foldl_cons, next_eq hname, ih hrest, List.append_assoc]
      rfl

/-- From a directory the names of what is below it lead there. -/
theorem IsTree.eq_of_walk (hfs : fs.IsTree) {names : List Text}
    (h : fs.get? (l ++ names) = some n) (hwalk : fs.walk l names = .ok l') : l' = l ++ names :=
  (eq_foldl_of_walk hwalk).trans <| foldl_next_eq fun name hname =>
    hfs.isEntryName h name (List.mem_append_right l hname)

/-- If they cannot be followed, a directory on the way cannot be gone through. -/
theorem IsTree.eq_denied_of_walk (hfs : fs.IsTree) {names : List Text} {f : AccessFault}
    (h : fs.get? (l ++ names) = some n) (hwalk : fs.walk l names = .error f) : f = .denied := by
  induction names generalizing l with
  | nil => cases hwalk
  | cons name names ih =>
      obtain ⟨m, hm⟩ := hasDirectory_iff.mp (hfs.hasDirectory h nofun)
      have hname : IsEntryName name := hfs.isEntryName h name (by simp)
      obtain ⟨-, -, -, -, hlen⟩ := id hname
      rw [List.append_cons] at h
      rw [walk, enter, hm] at hwalk
      by_cases hsearch : ownerSearches m = true
      · simp only [hsearch, Bool.not_true, Bool.false_eq_true, if_false,
          if_neg (Nat.not_lt.mpr hlen), next_eq hname] at hwalk
        exact ih h hwalk
      · simp only [Bool.eq_false_iff.mpr hsearch, Bool.not_false, if_true] at hwalk
        exact (Except.error.inj hwalk).symm

/-- The full path of what is there leads there. -/
theorem IsTree.eq_of_reach (hfs : fs.IsTree) (h : fs.get? l = some n)
    (hreach : fs.reach l = .ok l') : l' = l := by
  unfold reach at hreach
  split at hreach
  · cases hreach
  · exact hfs.eq_of_walk (l := []) h hreach

/-- A fault on the full path of what is there is not that it is absent. -/
theorem IsTree.meansAbsence_of_reach (hfs : fs.IsTree) {f : AccessFault}
    (h : fs.get? l = some n) (hreach : fs.reach l = .error f) : f.meansAbsence = false := by
  unfold reach at hreach
  split at hreach
  · obtain rfl := Except.error.inj hreach
    rfl
  · obtain rfl := hfs.eq_denied_of_walk (l := []) h hreach
    rfl

/-- A path that can be followed leads where its components say. -/
theorem resolve_of_locate {p : Path} (h : fs.locate p = .ok l) : fs.resolve p = l := by
  unfold locate at h
  repeat' split at h
  · cases h
  · cases h
  · exact (eq_foldl_of_walk h).symm

theorem refusal?_of_locate {p : Path} (h : fs.locate p = .ok l) : p.refusal? = none := by
  unfold locate at h
  split at h
  · cases h
  · assumption

/-- A path names what is where it leads. -/
theorem stat_eq_ok_iff {p : Path} :
    fs.stat p = .ok n ↔ ∃ l, fs.locate p = .ok l ∧ fs.get? l = some n := by
  unfold stat entry
  cases fs.locate p with
  | error f => simp
  | ok l => cases hn : fs.get? l <;> simp [hn]

/-! ### Faults -/

/-- A way cannot be followed because something is absent, or because a directory cannot be gone
through or a name is too long. -/
theorem fault_of_walk {names : List Text} {f : AccessFault} (h : fs.walk l names = .error f) :
    f.meansAbsence = true ∨ f = .denied ∨ f = .nameTooLong := by
  induction names generalizing l with
  | nil => cases h
  | cons name names ih =>
      rw [FileSystem.walk] at h
      cases henter : fs.enter l name with
      | ok l' => rw [henter] at h; exact ih h
      | error g =>
          rw [henter] at h
          obtain rfl := Except.error.inj h
          unfold enter at henter
          repeat' split at henter
          · obtain rfl := Except.error.inj henter
            exact Or.inl rfl
          · obtain rfl := Except.error.inj henter
            exact Or.inl rfl
          · exact Or.inr (Or.inl (Except.error.inj henter).symm)
          · exact Or.inr (Or.inr (Except.error.inj henter).symm)
          · cases henter

/-- The same of a path that the system can be asked about. -/
theorem fault_of_locate {p : Path} {f : AccessFault} (hp : p.refusal? = none)
    (h : fs.locate p = .error f) : f.meansAbsence = true ∨ f = .denied ∨ f = .nameTooLong := by
  rw [locate, hp] at h
  dsimp only at h
  split at h
  · exact Or.inr (Or.inr (Except.error.inj h).symm)
  · exact fault_of_walk h

/-- Such faults are the system's. -/
theorem isSystem_of_fault {f : AccessFault}
    (h : f.meansAbsence = true ∨ f = .denied ∨ f = .nameTooLong) : f.isSystem = true := by
  rcases h with h | rfl | rfl
  · cases f <;> first | rfl | cases h
  · rfl
  · rfl

/-- Where nothing is, that is the fault. -/
theorem eq_notFound_of_entry {f : AccessFault} (h : fs.entry l = .error f) : f = .notFound := by
  unfold entry at h
  split at h
  · cases h
  · exact (Except.error.inj h).symm

theorem isSystem_of_entry {f : AccessFault} (h : fs.entry l = .error f) : f.isSystem = true := by
  obtain rfl := eq_notFound_of_entry h
  rfl

theorem isSystem_of_reach {f : AccessFault} (h : fs.reach l = .error f) : f.isSystem = true := by
  unfold FileSystem.reach at h
  split at h
  · obtain rfl := Except.error.inj h
    rfl
  · exact isSystem_of_fault (fault_of_walk h)

/-- Where the system can be asked it reports every fault. -/
theorem isSystem_of_locate {p : Path} {f : AccessFault} (hp : p.refusal? = none)
    (h : fs.locate p = .error f) : f.isSystem = true := isSystem_of_fault (fault_of_locate hp h)

theorem isSystem_of_stat {p : Path} {f : AccessFault} (hp : p.refusal? = none)
    (h : fs.stat p = .error f) : f.isSystem = true := by
  unfold stat at h
  cases hl : fs.locate p with
  | error g =>
      rw [hl] at h
      obtain rfl := Except.error.inj h
      exact isSystem_of_locate hp hl
  | ok l =>
      rw [hl] at h
      exact isSystem_of_entry h

/-- A path that no question can be asked about leads nowhere. -/
theorem locate_of_refusal {p : Path} {f : AccessFault} (hp : p.refusal? = some f) :
    fs.locate p = .error f := by rw [locate, hp]

theorem isSystem_of_refusal {p : Path} {f : AccessFault} (hp : p.refusal? = some f) :
    f.isSystem = false := by
  unfold Path.refusal? at hp
  repeat' split at hp
  · obtain rfl := Option.some.inj hp
    rfl
  · obtain rfl := Option.some.inj hp
    rfl
  · cases hp

/-- A path names nothing because that is absent, the system cannot be asked about the path, or the
path cannot be followed. -/
theorem fault_of_stat {p : Path} {f : AccessFault} (h : fs.stat p = .error f) :
    f.meansAbsence = true ∨ f.isSystem = false ∨ f = .denied ∨ f = .nameTooLong := by
  unfold stat at h
  cases hl : fs.locate p with
  | error g =>
      rw [hl] at h
      obtain rfl := Except.error.inj h
      cases hp : p.refusal? with
      | some g' =>
          obtain rfl := Except.error.inj ((locate_of_refusal hp).symm.trans hl)
          exact Or.inr (Or.inl (isSystem_of_refusal hp))
      | none => exact (fault_of_locate hp hl).imp_right Or.inr
  | ok l =>
      rw [hl] at h
      obtain rfl := eq_notFound_of_entry h
      exact Or.inl rfl

/-- Only these two faults keep one from telling whether a path names a directory. -/
theorem fault_of_isDirectory {p : Path} {f : AccessFault} (h : fs.isDirectory p = .error f) :
    f = .denied ∨ f = .nameTooLong := by
  unfold isDirectory at h
  cases hstat : fs.stat p with
  | ok n => rw [hstat] at h; cases h
  | error g =>
      rw [hstat] at h
      dsimp only at h
      split at h
      · cases h
      · rename_i hpassed
        obtain rfl := Except.error.inj h
        rcases fault_of_stat hstat with habs | hsys | hstop
        · simp [habs] at hpassed
        · simp [hsys] at hpassed
        · exact hstop

/-- What names a directory leads somewhere. -/
theorem exists_of_isDirectory {p : Path} (h : fs.isDirectory p = .ok true) :
    ∃ l, fs.locate p = .ok l := by
  unfold isDirectory at h
  cases hstat : fs.stat p with
  | ok n => exact (stat_eq_ok_iff.mp hstat).imp fun _ h => h.1
  | error f =>
      rw [hstat] at h
      dsimp only at h
      split at h <;> cases h

/-! ## Shapes -/

/-- The entries in order, each with what it allows as a directory. -/
def shape (fs : FileSystem) : List (Location × Option Nat) :=
  fs.entries.map fun e => (e.1, e.2.directoryMode?)

/-- The file systems have the same files and directories, whatever the files hold. -/
structure SameShape (fs fs' : FileSystem) : Prop where
  shape : fs'.shape = fs.shape
  start : fs'.start = fs.start

theorem SameShape.refl (fs : FileSystem) : SameShape fs fs := ⟨rfl, rfl⟩

theorem SameShape.trans {fs'' : FileSystem} (h : SameShape fs fs') (h' : SameShape fs' fs'') :
    SameShape fs fs'' := ⟨h'.shape.trans h.shape, h'.start.trans h.start⟩

/-- Putting something else of the same kind where something is keeps the shape. -/
theorem sameShape_set (h : fs.get? l = some n) (hl : l ≠ []) (n' : Node)
    (hkind : n'.directoryMode? = n.directoryMode?) (replaced : List Location) :
    SameShape fs { fs.set l n' with replaced } := by
  have hentries : ∀ es : List (Location × Node), es.lookup l = some n →
      (insertEntry l n' es).map (fun e => (e.1, e.2.directoryMode?)) =
        es.map fun e => (e.1, e.2.directoryMode?) := by
    intro es hes
    induction es with
    | nil => cases hes
    | cons e es ih =>
        rw [lookup_cons_eq e.1 e.2 l] at hes
        by_cases hl : e.1 = l
        · rw [if_pos hl.symm] at hes
          obtain rfl := Option.some.inj hes
          rw [insertEntry, if_pos hl, List.map_cons, List.map_cons, hkind, hl]
        · rw [if_neg fun h => hl h.symm] at hes
          rw [insertEntry, if_neg hl, List.map_cons, List.map_cons, ih hes]
  rw [get?_of_ne_nil hl] at h
  exact ⟨hentries fs.entries h, rfl⟩

namespace SameShape

theorem kind (h : SameShape fs fs') (l : Location) :
    (fs'.get? l).map Node.directoryMode? = (fs.get? l).map Node.directoryMode? := by
  have hlookup : ∀ es : List (Location × Node), (es.lookup l).map Node.directoryMode? =
      (es.map fun e => (e.1, e.2.directoryMode?)).lookup l := by
    intro es
    induction es with
    | nil => rfl
    | cons e es ih =>
        rw [List.map_cons, lookup_cons_eq e.1 e.2 l, List.lookup_cons]
        by_cases hl : l = e.1
        · rw [if_pos hl, beq_iff_eq.mpr hl]
          rfl
        · rw [if_neg hl, beq_false_of_ne hl, ih]
  by_cases hl : l = []
  · subst hl
    rfl
  · rw [get?_of_ne_nil hl, get?_of_ne_nil hl, hlookup, hlookup]
    exact congrArg (List.lookup l) h.shape

/-- At each location is nothing in both, a file in both, or the same directory. -/
theorem cases (h : SameShape fs fs') (l : Location) :
    fs.get? l = none ∧ fs'.get? l = none ∨
      (∃ c m c' m', fs.get? l = some (.file c m) ∧ fs'.get? l = some (.file c' m')) ∨
      ∃ m, fs.get? l = some (.directory m) ∧ fs'.get? l = some (.directory m) := by
  have hkind := h.kind l
  cases hl : fs.get? l with
  | none =>
      rw [hl] at hkind
      exact Or.inl ⟨rfl, Option.map_eq_none_iff.mp hkind⟩
  | some n =>
      rw [hl] at hkind
      obtain ⟨n', hn', hsame⟩ := Option.map_eq_some_iff.mp hkind
      rw [hn']
      cases n with
      | file c m =>
          cases n' with
          | file c' m' => exact Or.inr (Or.inl ⟨c, m, c', m', rfl, rfl⟩)
          | directory m' => cases hsame
      | directory m =>
          cases n' with
          | file c' m' => cases hsame
          | directory m' =>
              obtain rfl := Option.some.inj hsame
              exact Or.inr (Or.inr ⟨m', rfl, rfl⟩)

/-- Where a file is, one was. -/
theorem exists_file {c' : Octets} {m' : Nat} (h : SameShape fs fs')
    (hfile : fs'.get? l = some (.file c' m')) : ∃ c m, fs.get? l = some (.file c m) := by
  rcases h.cases l with ⟨-, hl⟩ | ⟨c, m, -, -, hl, -⟩ | ⟨m, -, hl⟩
  · rw [hl] at hfile
    cases hfile
  · exact ⟨c, m, hl⟩
  · rw [hl] at hfile
    cases hfile

theorem isNone (h : SameShape fs fs') (l : Location) :
    (fs'.get? l).isNone = (fs.get? l).isNone := by
  rcases h.cases l with ⟨hl, hl'⟩ | ⟨c, m, c', m', hl, hl'⟩ | ⟨m, hl, hl'⟩
  · rw [hl, hl']
  · rw [hl, hl']
    rfl
  · rw [hl, hl']

theorem hasDirectory (h : SameShape fs fs') (l : Location) :
    fs'.hasDirectory l = fs.hasDirectory l := by
  unfold FileSystem.hasDirectory
  rcases h.cases l with ⟨hl, hl'⟩ | ⟨c, m, c', m', hl, hl'⟩ | ⟨m, hl, hl'⟩ <;>
    simp only [hl, hl', Option.any, Node.isDirectory, Node.directoryMode?]

theorem permits (h : SameShape fs fs') (allowed : Nat → Bool) (l : Location) :
    fs'.permits allowed l = fs.permits allowed l := by
  unfold FileSystem.permits
  rcases h.cases l with ⟨hl, hl'⟩ | ⟨c, m, c', m', hl, hl'⟩ | ⟨m, hl, hl'⟩ <;>
    simp only [hl, hl', Option.bind, Node.directoryMode?]

/-! ### Paths -/

theorem enter (h : SameShape fs fs') (l : Location) (name : Text) :
    fs'.enter l name = fs.enter l name := by
  unfold FileSystem.enter
  rcases h.cases l with ⟨hl, hl'⟩ | ⟨c, m, c', m', hl, hl'⟩ | ⟨m, hl, hl'⟩ <;> rw [hl, hl']

theorem walk (h : SameShape fs fs') (l : Location) (names : List Text) :
    fs'.walk l names = fs.walk l names := by
  induction names generalizing l with
  | nil => rfl
  | cons name names ih =>
      rw [FileSystem.walk, FileSystem.walk, h.enter]
      cases fs.enter l name with
      | error f => rfl
      | ok l' => exact ih l'

theorem reach (h : SameShape fs fs') (l : Location) : fs'.reach l = fs.reach l := by
  rw [FileSystem.reach, FileSystem.reach, h.walk]

/-- Every path leads to the same place. -/
theorem locate (h : SameShape fs fs') (p : Path) : fs'.locate p = fs.locate p := by
  rw [FileSystem.locate, FileSystem.locate, startOf, startOf, h.start, h.walk]

theorem resolve (h : SameShape fs fs') (p : Path) : fs'.resolve p = fs.resolve p := by
  rw [FileSystem.resolve, FileSystem.resolve, startOf, startOf, h.start]

theorem isDirectory (h : SameShape fs fs') (p : Path) :
    fs'.isDirectory p = fs.isDirectory p := by
  rw [FileSystem.isDirectory, FileSystem.isDirectory, stat, stat, h.locate]
  cases fs.locate p with
  | error f => rfl
  | ok l =>
      dsimp only
      unfold entry
      rcases h.cases l with ⟨hl, hl'⟩ | ⟨c, m, c', m', hl, hl'⟩ | ⟨m, hl, hl'⟩ <;>
        simp only [hl, hl', Node.isDirectory, Node.directoryMode?]

/-! ### Listings -/

theorem reveals (h : SameShape fs fs') (l : Location) (names : List Text) :
    fs'.reveals l names = fs.reveals l names := by
  induction names generalizing l with
  | nil => rfl
  | cons name names ih =>
      rw [FileSystem.reveals, FileSystem.reveals, h.permits, h.permits, ih]

theorem below (h : SameShape fs fs') (dir : Location) (suffix : Text) :
    fs'.below dir suffix = fs.below dir suffix := by
  have hkeys : fs'.entries.map (·.1) = fs.entries.map (·.1) := by
    have hmap : ∀ fs : FileSystem, fs.shape.map Prod.fst = fs.entries.map (·.1) := fun fs => by
      rw [FileSystem.shape, List.map_map]
      rfl
    rw [← hmap, ← hmap, h.shape]
  simp only [FileSystem.below, hkeys, h.reveals]

theorem directories (h : SameShape fs fs') (dir : Location) :
    fs'.directories dir = fs.directories dir := by
  have hshape : ∀ fs : FileSystem, fs.directories dir =
      (fs.shape.filter fun e =>
        dir.isPrefixOf e.1 && e.2.isSome && fs.reveals dir (e.1.drop dir.length)).map Prod.fst := by
    intro fs
    rw [FileSystem.directories, FileSystem.shape, List.filter_map, List.map_map]
    rfl
  simp only [hshape, h.shape, h.reveals]

theorem isTree (h : SameShape fs fs') (hfs : fs.IsTree) : fs'.IsTree := by
  refine ⟨fun e he => ?_, by rw [h.start, h.hasDirectory]; exact hfs.start⟩
  have hmem : (e.1, e.2.directoryMode?) ∈ fs.shape := h.shape ▸ List.mem_map_of_mem he
  obtain ⟨d, hd, hsame⟩ := List.mem_map.mp hmem
  obtain ⟨hne, hname, hdir⟩ := hfs.entries d hd
  rw [show d.1 = e.1 from (Prod.mk.inj hsame).1] at hne hname hdir
  exact ⟨hne, hname, by rw [h.hasDirectory]; exact hdir⟩

end SameShape

end FileSystem

end GlyphFormat
