import GlyphFormat.Proofs.File.Tree
import Mathlib.Data.List.Nodup

/-!
# The order of a listing

Paths are compared component by component, and components by code point. Both orders are linear, so
what is listed below a directory comes in one order only: each entry that has the suffix stands
behind those before it, and once if no location has two entries (`FileSystem.IsMap`).
-/

namespace GlyphFormat

/-! ## Texts -/

namespace Text

theorem le_cons_iff {c d : CodePoint} {s t : Text} :
    le (c :: s) (d :: t) = true ↔ c.val < d.val ∨ c = d ∧ le s t = true := by
  rw [le, Bool.or_eq_true, Bool.and_eq_true, decide_eq_true_iff, decide_eq_true_iff]

theorem le_total (s t : Text) : le s t = true ∨ le t s = true := by
  induction s generalizing t with
  | nil => exact .inl (by rw [le])
  | cons c s ih =>
      cases t with
      | nil => exact .inr (by rw [le])
      | cons d t =>
          rw [le_cons_iff, le_cons_iff]
          rcases Nat.lt_trichotomy c.val d.val with h | h | h
          · exact .inl (.inl h)
          · obtain rfl := CodePoint.ext h
            exact (ih t).imp (fun h => .inr ⟨rfl, h⟩) (fun h => .inr ⟨rfl, h⟩)
          · exact .inr (.inl h)

theorem le_trans {s t u : Text} (h : le s t = true) (h' : le t u = true) : le s u = true := by
  induction s generalizing t u with
  | nil => rw [le]
  | cons c s ih =>
      match t, u, h, h' with
      | d :: t, e :: u, h, h' =>
          rw [le_cons_iff] at h h' ⊢
          rcases h with h | ⟨rfl, h⟩ <;> rcases h' with h' | ⟨rfl, h'⟩
          · exact .inl (Nat.lt_trans h h')
          · exact .inl h
          · exact .inl h'
          · exact .inr ⟨rfl, ih h h'⟩

theorem le_antisymm {s t : Text} (h : le s t = true) (h' : le t s = true) : s = t := by
  induction s generalizing t with
  | nil =>
      cases t with
      | nil => rfl
      | cons d t => cases h'
  | cons c s ih =>
      cases t with
      | nil => cases h
      | cons d t =>
          rw [le_cons_iff] at h h'
          rcases h with h | ⟨rfl, h⟩
          · rcases h' with h' | ⟨rfl, -⟩ <;> omega
          · rcases h' with h' | ⟨-, h'⟩
            · omega
            · rw [ih h h']

end Text

/-! ## Paths -/

namespace Path

variable {a b : Text} {s t u : List Text}

theorem partsLe_cons_iff : partsLe (a :: s) (b :: t) = true ↔
    a = b ∧ partsLe s t = true ∨ a ≠ b ∧ Text.le a b = true := by
  rw [partsLe]
  by_cases hab : a = b
  · simp [hab]
  · simp [hab]

theorem partsLe_total (s t : List Text) : partsLe s t = true ∨ partsLe t s = true := by
  induction s generalizing t with
  | nil => exact .inl (by rw [partsLe])
  | cons a s ih =>
      cases t with
      | nil => exact .inr (by rw [partsLe])
      | cons b t =>
          rw [partsLe_cons_iff, partsLe_cons_iff]
          by_cases hab : a = b
          · exact (ih t).imp (fun h => .inl ⟨hab, h⟩) (fun h => .inl ⟨hab.symm, h⟩)
          · exact (Text.le_total a b).imp (fun h => .inr ⟨hab, h⟩)
              (fun h => .inr ⟨fun hba => hab hba.symm, h⟩)

theorem partsLe_trans (h : partsLe s t = true) (h' : partsLe t u = true) :
    partsLe s u = true := by
  induction s generalizing t u with
  | nil => rw [partsLe]
  | cons a s ih =>
      match t, u, h, h' with
      | b :: t, c :: u, h, h' =>
          rw [partsLe_cons_iff] at h h' ⊢
          rcases h with ⟨rfl, h⟩ | ⟨hab, h⟩ <;> rcases h' with ⟨rfl, h'⟩ | ⟨hbc, h'⟩
          · exact .inl ⟨rfl, ih h h'⟩
          · exact .inr ⟨hbc, h'⟩
          · exact .inr ⟨hab, h⟩
          · refine .inr ⟨?_, Text.le_trans h h'⟩
            rintro rfl
            exact hab (Text.le_antisymm h h')

theorem partsLe_append_left (r : List Text) : partsLe (r ++ s) (r ++ t) = partsLe s t := by
  induction r with
  | nil => rfl
  | cons a r ih => rw [List.cons_append, List.cons_append, partsLe, if_pos rfl, ih]

end Path

/-! ## Listings -/

namespace FileSystem

variable {fs : FileSystem} {l dir : Location} {suffix : Text}

/-- No location has two entries. -/
def IsMap (fs : FileSystem) : Prop := (fs.entries.map (·.1)).Nodup

instance (fs : FileSystem) : Decidable fs.IsMap := inferInstanceAs (Decidable (List.Nodup _))

/-- The names lead down from the directory to something that is there, and the last name has the
suffix. -/
structure Leads (fs : FileSystem) (dir : Location) (suffix : Text) (names : List Text) : Prop where
  ne_nil : names ≠ []
  isSome : (fs.get? (dir ++ names)).isSome = true
  suffix : suffix <:+ names.getLastD []

theorem mem_keys_iff (hl : l ≠ []) :
    l ∈ fs.entries.map (·.1) ↔ (fs.get? l).isSome = true := by
  rw [get?_of_ne_nil hl, List.lookup_isSome_iff, List.mem_map]
  exact exists_congr fun e => and_congr_right fun _ => ⟨fun h => beq_iff_eq.mpr h.symm,
    fun h => (beq_iff_eq.mp h).symm⟩

theorem getLastD_append (l : Location) {names : List Text} (h : names ≠ []) :
    (l ++ names).getLastD [] = names.getLastD [] := by
  rw [List.getLastD_eq_getLast?, List.getLastD_eq_getLast?, List.getLast?_append_of_ne_nil l h]

/-- What is listed is all that is come to below the directory and has the suffix. -/
theorem mem_below_iff :
    l ∈ fs.below dir suffix ↔
      ∃ names, l = dir ++ names ∧ fs.Leads dir suffix names ∧ fs.reveals dir names = true := by
  rw [below, sortLocations, List.mem_mergeSort, List.mem_filter, Bool.and_eq_true,
    Bool.and_eq_true, Bool.and_eq_true, List.isPrefixOf_iff_prefix, List.isSuffixOf_iff_suffix,
    decide_eq_true_iff]
  constructor
  · rintro ⟨hmem, ⟨⟨⟨names, rfl⟩, hlen⟩, hsuffix⟩, hrevealed⟩
    have hne : names ≠ [] := by
      rintro rfl
      simp at hlen
    rw [getLastD_append dir hne] at hsuffix
    rw [List.drop_left] at hrevealed
    exact ⟨names, rfl, ⟨hne, (mem_keys_iff (by simp [hne])).mp hmem, hsuffix⟩, hrevealed⟩
  · rintro ⟨names, rfl, ⟨hne, hsome, hsuffix⟩, hrevealed⟩
    have hlen : dir.length < (dir ++ names).length := by
      rw [List.length_append]
      exact Nat.lt_add_of_pos_right (List.length_pos_iff.mpr hne)
    rw [getLastD_append dir hne, List.drop_left]
    exact ⟨(mem_keys_iff (by simp [hne])).mpr hsome,
      ⟨⟨List.prefix_append dir names, hlen⟩, hsuffix⟩, hrevealed⟩

/-- The listing is in order. -/
theorem pairwise_below (fs : FileSystem) (dir : Location) (suffix : Text) :
    (fs.below dir suffix).Pairwise fun l l' => Path.partsLe l l' = true := by
  have htotal : ∀ l l' : Location, (Path.partsLe l l' || Path.partsLe l' l) = true := fun l l' =>
    Bool.or_eq_true_iff.mpr (Path.partsLe_total l l')
  exact @List.pairwise_mergeSort _ Path.partsLe (fun _ _ _ => Path.partsLe_trans) htotal _

/-- Entries that are in order are listed as they stand. -/
theorem below_of_pairwise
    (h : (fs.entries.map (·.1)).Pairwise fun l l' => Path.partsLe l l' = true) :
    fs.below dir suffix = (fs.entries.map (·.1)).filter fun l =>
      dir.isPrefixOf l && dir.length < l.length && suffix.isSuffixOf (l.getLastD []) &&
        fs.reveals dir (l.drop dir.length) :=
  List.mergeSort_of_pairwise (h.filter _)

theorem IsMap.nodup_below (hfs : fs.IsMap) (dir : Location) (suffix : Text) :
    (fs.below dir suffix).Nodup :=
  (List.mergeSort_perm _ _).nodup_iff.mpr (List.Nodup.filter _ hfs)

/-- An entry is what is found at its location. -/
theorem IsMap.lookup_eq {es : List (Location × Node)} (hes : (es.map (·.1)).Nodup)
    {e : Location × Node} (he : e ∈ es) : es.lookup e.1 = some e.2 := by
  induction es with
  | nil => cases he
  | cons d es ih =>
      rw [List.map_cons, List.nodup_cons] at hes
      rw [lookup_cons_eq d.1 d.2]
      rcases List.mem_cons.mp he with rfl | he
      · exact if_pos rfl
      · have hne : e.1 ≠ d.1 := fun h => hes.1 (h ▸ List.mem_map_of_mem he)
        rw [if_neg hne]
        exact ih hes.2 he

/-- The directories that are looked through are the directory and those that are come to below it.
The root is not among the entries. -/
theorem mem_directories_iff (hfs : fs.IsTree) (hmap : fs.IsMap) :
    l ∈ fs.directories dir ↔ ∃ names, l = dir ++ names ∧ l ≠ [] ∧ fs.hasDirectory l = true ∧
      fs.reveals dir names = true := by
  have hget : ∀ e ∈ fs.entries, fs.get? e.1 = some e.2 := fun e he => by
    rw [get?_of_ne_nil (hfs.entries e he).1]
    exact IsMap.lookup_eq hmap he
  rw [directories, List.mem_map]
  constructor
  · rintro ⟨e, he, rfl⟩
    rw [List.mem_filter, Bool.and_eq_true, Bool.and_eq_true, List.isPrefixOf_iff_prefix] at he
    obtain ⟨hmem, ⟨⟨names, hnames⟩, hdir⟩, hrevealed⟩ := he
    rw [← hnames, List.drop_left] at hrevealed
    refine ⟨names, hnames.symm, (hfs.entries e hmem).1, ?_, hrevealed⟩
    rw [FileSystem.hasDirectory, hget e hmem]
    exact hdir
  · rintro ⟨names, rfl, hne, hdir, hrevealed⟩
    obtain ⟨m, hm⟩ := hasDirectory_iff.mp hdir
    obtain ⟨e, he, heq⟩ := List.mem_map.mp ((mem_keys_iff hne).mpr (by rw [hm]; rfl))
    have hnode : e.2 = .directory m := Option.some.inj ((hget e he).symm.trans (heq ▸ hm))
    refine ⟨e, List.mem_filter.mpr ⟨he, ?_⟩, heq⟩
    rw [Bool.and_eq_true, Bool.and_eq_true, List.isPrefixOf_iff_prefix, hnode, heq, List.drop_left]
    exact ⟨⟨List.prefix_append dir names, rfl⟩, hrevealed⟩

/-! ### Open directories -/

/-- Each directory at or below the one can be listed and gone through. -/
def IsOpen (fs : FileSystem) (dir : Location) : Prop :=
  ∀ names m, fs.get? (dir ++ names) = some (.directory m) →
    ownerReads m = true ∧ ownerSearches m = true

/-- It is enough that this holds of the entries. -/
theorem isOpen_of_entries (h : ∀ e ∈ fs.entries, ∀ m ∈ e.2.directoryMode?,
    ownerReads m = true ∧ ownerSearches m = true) (dir : Location) : fs.IsOpen dir := by
  intro names m hm
  by_cases hroot : dir ++ names = []
  · rw [hroot] at hm
    obtain rfl := Node.directory.inj (Option.some.inj hm)
    decide
  · rw [get?_of_ne_nil hroot] at hm
    obtain ⟨es, es', hes, -⟩ := List.lookup_eq_some_iff.mp hm
    exact h (dir ++ names, .directory m) (by rw [hes]; simp) m rfl

theorem IsOpen.permits (h : fs.IsOpen dir) (hdir : fs.hasDirectory dir = true) :
    fs.permits ownerReads dir = true ∧ fs.permits ownerSearches dir = true := by
  obtain ⟨m, hm⟩ := hasDirectory_iff.mp hdir
  have hself : fs.get? (dir ++ []) = some (.directory m) := by rwa [List.append_nil]
  unfold FileSystem.permits
  rw [hm]
  exact h [] m hself

/-- Below an open directory everything is come to. By induction on the names. -/
theorem IsOpen.reveals (hfs : fs.IsTree) (h : fs.IsOpen dir) {names : List Text}
    (hsome : (fs.get? (dir ++ names)).isSome = true) : fs.reveals dir names = true := by
  induction names generalizing dir with
  | nil => rfl
  | cons name names ih =>
      obtain ⟨n, hn⟩ := Option.isSome_iff_exists.mp hsome
      obtain ⟨hreads, hsearches⟩ := h.permits (hfs.hasDirectory hn nofun)
      have hrest : fs.reveals (dir ++ [name]) names = true := by
        refine ih (fun names' m hm => h (name :: names') m ?_) ?_
        · rwa [List.append_cons]
        · rwa [← List.append_cons]
      rw [FileSystem.reveals, hreads, hsearches, hrest, Bool.or_true]
      rfl

end FileSystem

end GlyphFormat
