import GlyphFormat.Resolver

/-!
# Answers of a scope

While items are written a scope is asked about names and told of items. `Reached` are the states it
comes into on the way, and a scope whose answers depend only on the name and on the items that are
done (`Answers`) is as good as a function. Name resolution is such a scope, and its function is that
an item before binds the name (`Resolver.answers`).
-/

namespace GlyphFormat

namespace Scope

variable {σ : Type} [Scope σ]

/-- The states of a scope that was told of the items, whatever it was asked in between. -/
inductive Reached (start : σ) : List Item → σ → Prop
  | start : Reached start [] start
  | asked {done : List Item} {s : σ} (h : Reached start done s) (name : Text) :
      Reached start done (isBound name s).2
  | registered {done : List Item} {s : σ} (h : Reached start done s) (i : Item) :
      Reached start (done ++ [i]) (register i s)

/-- Told of more items, a scope comes into some state. -/
theorem Reached.exists_append {start s : σ} {done : List Item} (h : Reached start done s)
    (is : List Item) : ∃ t, Reached start (done ++ is) t := by
  induction is generalizing done s with
  | nil => exact ⟨s, by rwa [List.append_nil]⟩
  | cons i is ih =>
      obtain ⟨t, ht⟩ := ih (h.registered i)
      exact ⟨t, by rwa [List.append_cons]⟩

/-- Whether a name is bound depends on the name and on the items that are done, and on no more. -/
def Answers (start : σ) (bound : List Item → Text → Bool) : Prop :=
  ∀ done s name, Reached start done s → (isBound name s).1 = bound done name

/-- Nothing is ever reported. -/
def Silent (start : σ) : Prop := ∀ done s, Reached start done s → diagnostics s = []

end Scope

/-! ## Name resolution -/

/-- The item is a binding of the name. -/
def Item.binds (i : Item) (name : Text) : Bool :=
  match i with
  | .binding n _ _ _ => n = name
  | _ => false

/-- One of the items binds the name. -/
def boundBefore (done : List Item) (name : Text) : Bool := done.any (·.binds name)

theorem boundBefore_append_all (is js : List Item) :
    boundBefore (is ++ js) = fun n => boundBefore is n || boundBefore js n := by
  funext n
  exact List.any_append

theorem boundBefore_append (done : List Item) (i : Item) :
    boundBefore (done ++ [i]) = fun name => boundBefore done name || i.binds name := by
  rw [boundBefore_append_all]
  funext name
  exact congrArg (boundBefore done name || ·) (Bool.or_false _)

namespace Resolver

/-- The state after the items. -/
def after (done : List Item) : Resolver := done.foldl register {}

theorem after_append (done : List Item) (i : Item) :
    after (done ++ [i]) = (after done).register i := by
  rw [after, List.foldl_append]
  rfl

theorem reached {done : List Item} {r : Resolver} (h : Scope.Reached ({} : Resolver) done r) :
    r = after done := by
  induction h with
  | start => rfl
  | asked _ _ ih => exact ih
  | registered _ i ih =>
      rw [after_append, ← ih]
      rfl

theorem bindings_resolve (r : Resolver) (names : List (Text × Option Span)) :
    (r.resolve names).bindings = r.bindings := by
  unfold resolve
  induction names generalizing r with
  | nil => rfl
  | cons n names ih =>
      rw [List.foldl_cons, ih]
      split <;> rfl

theorem any_setBinding (m : Text) (span : Option Span) (bs : List (Text × Option Span))
    (name : Text) :
    (setBinding m span bs).any (·.1 = name) = (bs.any (·.1 = name) || decide (m = name)) := by
  induction bs with
  | nil => simp [setBinding]
  | cons b bs ih =>
      rw [setBinding]
      by_cases hb : b.1 = m
      · rw [if_pos hb, List.any_cons, List.any_cons, hb, Bool.or_right_comm, Bool.or_self]
      · rw [if_neg hb, List.any_cons, List.any_cons, ih, Bool.or_assoc]

theorem bindings_bind (r : Resolver) (n : Text) (ws : List Word) (nameSpan span : Option Span) :
    (r.bind n ws nameSpan span).bindings = setBinding n nameSpan r.bindings := by
  unfold bind
  dsimp only
  split <;> rfl

theorem isBound_register (r : Resolver) (i : Item) (name : Text) :
    (r.register i).isBound name = (r.isBound name || i.binds name) := by
  have hkeep : (r.resolve i.idents).isBound name = r.isBound name := by
    rw [isBound, bindings_resolve]
    rfl
  cases i with
  | binding n ws nameSpan span =>
      rw [← hkeep, register, isBound, bindings_bind, any_setBinding]
      rfl
  | _ => exact hkeep.trans (Bool.or_false _).symm

theorem isBound_foldl (is : List Item) (r : Resolver) (name : Text) :
    (is.foldl register r).isBound name = (r.isBound name || boundBefore is name) := by
  induction is generalizing r with
  | nil => exact (Bool.or_false _).symm
  | cons i is ih => rw [List.foldl_cons, ih, isBound_register, Bool.or_assoc]; rfl

theorem isBound_after (done : List Item) : (after done).isBound = boundBefore done :=
  funext fun name => isBound_foldl done {} name

/-- A name is bound when an item before binds it. -/
theorem answers : Scope.Answers ({} : Resolver) boundBefore := by
  intro done r name hr
  rw [reached hr, ← isBound_after]
  rfl

end Resolver

/-! ## Scopes made by hand -/

namespace Preset

theorem contains_register (s : Preset) (i : Item) (name : Text) :
    (Scope.register i s).bound.contains name =
      (s.bound.contains name || (s.learns && i.binds name)) := by
  cases i with
  | binding n ws nameSpan span =>
      show (ite _ { s with bound := n :: s.bound } s).bound.contains name =
        (s.bound.contains name || (s.learns && decide (n = name)))
      by_cases hname : n = name
      · subst hname
        cases hlearns : s.learns <;> cases hbound : s.bound.contains n <;> simp_all
      · have hne : name ≠ n := Ne.symm hname
        split <;> simp [hname, hne]
  | _ => simp [Scope.register, Item.binds]

theorem register_eq (s : Preset) (i : Item) :
    (Scope.register i s).learns = s.learns ∧ (Scope.register i s).reports = s.reports := by
  cases i with
  | binding n ws nameSpan span =>
      show (ite _ _ s).learns = _ ∧ (ite _ _ s).reports = _
      split <;> exact ⟨rfl, rfl⟩
  | _ => exact ⟨rfl, rfl⟩

/-- What a preset scope knows after some items. -/
theorem reached {start s : Preset} {done : List Item} (h : Scope.Reached start done s) :
    s.learns = start.learns ∧ s.reports = start.reports ∧ ∀ name, s.bound.contains name =
      (start.bound.contains name || (start.learns && boundBefore done name)) := by
  induction h with
  | start => exact ⟨rfl, rfl, fun name => by simp [boundBefore]⟩
  | asked _ _ ih => exact ih
  | @registered done s _ i ih =>
      obtain ⟨hlearns, hreports, hbound⟩ := ih
      obtain ⟨hlearns', hreports'⟩ := register_eq s i
      refine ⟨hlearns'.trans hlearns, hreports'.trans hreports, fun name => ?_⟩
      rw [contains_register, hbound, boundBefore_append, hlearns, Bool.or_assoc,
        Bool.and_or_distrib_left]

/-- A name is bound when the scope was told so, or learned it from an item before. -/
theorem answers (start : Preset) : Scope.Answers start fun done name =>
    start.bound.contains name || (start.learns && boundBefore done name) :=
  fun _ _ name hs => (reached hs).2.2 name

theorem silent {start : Preset} (h : start.reports = []) : Scope.Silent start :=
  fun _ _ hs => (reached hs).2.1.trans h

end Preset

/-! ## Items without a fault -/

/-- The item is no binding without a value. -/
def Item.hasValue : Item → Bool
  | .binding _ ws _ _ => !ws.isEmpty
  | _ => true

/-- Every name of the item stands for something, and it has a value if it is a binding. -/
def Item.Sound (bound : Text → Bool) (i : Item) : Prop :=
  (∀ n ∈ i.idents, bound n.1 = true ∨ (Primitive.ofName? n.1).isSome = true) ∧ i.hasValue = true

instance (bound : Text → Bool) (i : Item) : Decidable (i.Sound bound) :=
  inferInstanceAs (Decidable (_ ∧ _))

/-- Items that come after others are sound, each after those before it. -/
def SoundItems (done : List Item) : List Item → Prop
  | [] => True
  | i :: is => i.Sound (boundBefore done) ∧ SoundItems (done ++ [i]) is

instance decidableSoundItems : (done is : List Item) → Decidable (SoundItems done is)
  | _, [] => .isTrue trivial
  | done, i :: is =>
    have := decidableSoundItems (done ++ [i]) is
    inferInstanceAs (Decidable (_ ∧ _))

theorem soundItems_append {done is js : List Item} :
    SoundItems done (is ++ js) ↔ SoundItems done is ∧ SoundItems (done ++ is) js := by
  induction is generalizing done with
  | nil => rw [List.append_nil]; exact (and_iff_right trivial).symm
  | cons i is ih =>
      rw [List.cons_append, SoundItems, ih, SoundItems, ← List.append_cons, and_assoc]

/-! ## Faults of items -/

def ResolveFault.diagnostic (f : ResolveFault) (span : Option Span) : Diagnostic :=
  ⟨f.message, span.getD .nowhere, .resolve⟩

/-- What is reported about a name that stands for nothing. -/
def unknown? (bound : Text → Bool) (n : Text × Option Span) : Option Diagnostic :=
  if bound n.1 || (Primitive.ofName? n.1).isSome then none
  else some ((ResolveFault.unknown n.1).diagnostic n.2)

/-- What is reported about a binding without a value. -/
def Item.noValue? : Item → Option Diagnostic
  | .binding name [] _ span => some ((ResolveFault.noValue name).diagnostic span)
  | _ => none

/-- What is reported about an item. -/
def Item.faults (bound : Text → Bool) (i : Item) : List Diagnostic :=
  i.idents.filterMap (unknown? bound) ++ i.noValue?.toList

/-- What is reported about items that come after others. -/
def faultsBehind (done : List Item) : List Item → List Diagnostic
  | [] => []
  | i :: is => i.faults (boundBefore done) ++ faultsBehind (done ++ [i]) is

theorem unknown?_eq_none {bound : Text → Bool} {n : Text × Option Span} :
    unknown? bound n = none ↔ bound n.1 = true ∨ (Primitive.ofName? n.1).isSome = true := by
  unfold unknown?
  split
  · rename_i h
    exact iff_of_true rfl (Bool.or_eq_true_iff.mp h)
  · rename_i h
    exact iff_of_false nofun (mt Bool.or_eq_true_iff.mpr h)

theorem Item.noValue?_eq_none {i : Item} : i.noValue? = none ↔ i.hasValue = true := by
  cases i with
  | binding n ws _ _ => cases ws <;> simp [noValue?, hasValue]
  | _ => exact iff_of_true rfl rfl

/-- Nothing is reported about an item that is sound, and about no other one. -/
theorem Item.faults_eq_nil {bound : Text → Bool} {i : Item} :
    i.faults bound = [] ↔ i.Sound bound := by
  rw [faults, List.append_eq_nil_iff, List.filterMap_eq_nil_iff, Option.toList_eq_nil_iff,
    noValue?_eq_none, Sound]
  simp only [unknown?_eq_none]

theorem faultsBehind_eq_nil {done is : List Item} :
    faultsBehind done is = [] ↔ SoundItems done is := by
  induction is generalizing done with
  | nil => exact iff_of_true rfl trivial
  | cons i is ih =>
      rw [faultsBehind, List.append_eq_nil_iff, Item.faults_eq_nil, ih]
      rfl

theorem faultsBehind_append (done is js : List Item) :
    faultsBehind done (is ++ js) = faultsBehind done is ++ faultsBehind (done ++ is) js := by
  induction is generalizing done with
  | nil => rw [List.append_nil]; rfl
  | cons i is ih =>
      rw [List.cons_append, faultsBehind, ih, faultsBehind, ← List.append_cons, List.append_assoc]

namespace Resolver

theorem faults_resolve (r : Resolver) (names : List (Text × Option Span)) :
    (r.resolve names).faults = r.faults ++ names.filterMap (unknown? r.isBound) := by
  unfold resolve
  induction names generalizing r with
  | nil => exact (List.append_nil _).symm
  | cons n names ih =>
      rw [List.foldl_cons, ih, List.filterMap_cons, unknown?]
      by_cases hn : r.knows n.1 = true
      · rw [if_pos hn, if_pos (show (r.isBound n.1 || _) = true from hn)]
      · rw [if_neg hn, if_neg (show ¬(r.isBound n.1 || _) = true from hn)]
        exact List.append_assoc _ _ _

theorem faults_register (r : Resolver) (i : Item) :
    (r.register i).faults = r.faults ++ i.faults r.isBound := by
  have hnames := faults_resolve r i.idents
  cases i with
  | binding n ws nameSpan span =>
      rw [Item.faults, ← List.append_assoc, ← hnames]
      cases ws with
      | nil => rfl
      | cons w ws => exact (List.append_nil _).symm
  | _ => exact hnames.trans (congrArg _ (List.append_nil _).symm)

/-- Registering items adds what is reported about each. -/
theorem faults_after (done is : List Item) :
    (after (done ++ is)).faults = (after done).faults ++ faultsBehind done is := by
  induction is generalizing done with
  | nil => rw [List.append_nil]; exact (List.append_nil _).symm
  | cons i is ih =>
      rw [List.append_cons, ih, after_append, faults_register, isBound_after, List.append_assoc]
      rfl

end Resolver

end GlyphFormat
