import GlyphFormat.Proofs.Formatter.Sources

/-!
# What a scope is asked and told

Writing an item and resolving its names are two walks over the same tree. They agree
(`calls_formatItems`): while items are written, the scope is asked about the names of each item just
as they stand in the preorder of its words, which is how name resolution finds them, and is told of
the item when all of them are asked. So where name resolution has nothing to report, every name has
been written as what it stands for at that point: a binding before it or a primitive.
-/

namespace GlyphFormat

/-! ## A log of calls -/

/-- What a scope is asked or told. -/
inductive Call where
  | asked (name : Text)
  | registered (item : Item)

/-- A scope that keeps a log of its calls. The answers are those of another scope. -/
structure Logged (σ : Type) where
  inner : σ
  calls : List Call := []

instance {σ : Type} [Scope σ] : Scope (Logged σ) where
  isBound name s :=
    let (b, inner) := Scope.isBound name s.inner
    (b, ⟨inner, s.calls ++ [.asked name]⟩)
  register item s := ⟨Scope.register item s.inner, s.calls ++ [.registered item]⟩
  diagnostics s := Scope.diagnostics s.inner

/-- One question for each name of the item, in document order, and then the item itself. -/
def Item.calls (i : Item) : List Call :=
  i.idents.map (fun n => Call.asked n.1) ++ [.registered i]

theorem Item.calls_eq_marks (i : Item) :
    i.calls = (i.marks.filterMap Mark.name?).map Call.asked ++ [.registered i] := by
  rw [calls, ← names_eq_marks, List.map_map]
  rfl

namespace Writing

variable {σ : Type}

/-- What an item has in front of its words. -/
def front : Item → Writing σ Unit
  | .binding name _ _ _ => do
    push name
    push " = "
  | .comment t _ => do
    push "# "
    push t
  | _ => pure ()

theorem runs_front (i : Item) (l : Layout) (s : σ) : Runs (front i) ⟨l, s⟩ ⟨l.front i, s⟩ := by
  cases i with
  | binding n _ _ _ => exact (runs_push n l s).bind (runs_push _ _ s)
  | comment t _ => exact (runs_push _ l s).bind (runs_push t _ s)
  | _ => rfl

end Writing

section

variable {σ : Type} [Scope σ]

/-- Marks are settled under a log as they are without it, and each name is asked once. -/
theorem Mark.settleAll_logged (ms : List Mark) (s : σ) (calls : List Call) :
    settleAll ms (⟨s, calls⟩ : Logged σ) = ((settleAll ms s).1,
      ⟨(settleAll ms s).2, calls ++ (ms.filterMap name?).map Call.asked⟩) := by
  induction ms generalizing s calls with
  | nil => simp [settleAll]
  | cons m ms ih =>
      cases m with
      | ident n =>
          have hasked := ih (Scope.isBound n s).2 (calls ++ [.asked n])
          rw [List.append_assoc] at hasked
          simp only [settleAll, settle]
          exact congrArg (fun r : List Mark × Logged σ =>
            (ofName (Scope.isBound n s).1 n :: r.1, r.2)) hasked
      | _ => exact congrArg (fun r : List Mark × Logged σ => (_ :: r.1, r.2)) (ih s calls)

namespace Writing

/-- Writing items under a log leaves the same layout, and behind the log the calls of each item. By
induction on the items; one of them is its marks and then its registration. -/
theorem runs_items_logged {is : List Item} (his : ∀ i ∈ is, i.Writable) (l : Layout) (s : σ)
    (calls : List Call) :
    ∃ l' t, Runs (items is) ⟨l, s⟩ ⟨l', t⟩ ∧
      Runs (items is) ⟨l, (⟨s, calls⟩ : Logged σ)⟩ ⟨l', ⟨t, calls ++ is.flatMap Item.calls⟩⟩ := by
  induction is generalizing l s calls with
  | nil => exact ⟨l, s, rfl, by rw [List.flatMap_nil, List.append_nil]; rfl⟩
  | cons i is ih =>
      have hi := his i List.mem_cons_self
      have hplain := runs_item hi l s
      have hlogged := runs_item hi l (⟨s, calls⟩ : Logged σ)
      rw [Mark.settleAll_logged] at hlogged
      obtain ⟨l', t, hrest, hrest'⟩ := ih (fun j hj => his j (List.mem_cons_of_mem _ hj))
        (((Mark.settleAll i.marks s).1.foldl Layout.put (l.front i)).push "\n")
        (Scope.register i (Mark.settleAll i.marks s).2) (calls ++ i.calls)
      refine ⟨l', t, hplain.bind hrest, ?_⟩
      rw [List.append_assoc, ← List.flatMap_cons] at hrest'
      rw [Item.calls_eq_marks, ← List.append_assoc] at hrest'
      exact hlogged.bind hrest'

/-! ## Writing up to a mark -/

theorem itemText_eq_marks (i : Item) :
    itemText i = (do front i; marks i.marks : Writing σ Unit) := by
  have hnone : (marks [] : Writing σ Unit) = pure () := rfl
  cases i with
  | words ws _ => exact (words_eq_marks ws).trans (pure_bind _ _).symm
  | binding n ws _ _ =>
      rw [itemText, words_eq_marks, front, bind_assoc]
      rfl
  | comment t _ => exact (bind_pure_unit (x := (front (.comment t none) : Writing σ Unit))).symm
  | newlines _ | missing => exact (pure_bind _ _).symm

/-- The part of writing that comes before a mark: the items before, and of its own item the front
and the marks before it. -/
def upTo (before : List Item) (i : Item) (ms : List Mark) : Writing σ Unit := do
  items before
  front i
  marks ms

/-- The part of writing that comes behind a mark. -/
def onFrom (ms : List Mark) (i : Item) (after : List Item) : Writing σ Unit := do
  marks ms
  register i
  push "\n"
  items after

theorem items_append (is js : List Item) :
    items (is ++ js) = (do items is; items js : Writing σ Unit) := by
  induction is with
  | nil => exact (pure_bind _ _).symm
  | cons i is ih => simp only [List.cons_append, items, ih, bind_assoc]

theorem items_eq_upTo {before after : List Item} {i : Item} {m : Mark} {ms ns : List Mark}
    (h : i.marks = ms ++ m :: ns) :
    items (before ++ i :: after) =
      (do upTo before i ms; mark m; onFrom ns i after : Writing σ Unit) := by
  simp only [items_append, items, item, itemText_eq_marks, h, marks_append, marks_cons, upTo,
    onFrom, bind_assoc]

/-- The scope comes to a mark in a state that knows the items before and no others. -/
theorem runs_upTo {start : σ} {bound : List Item → Text → Bool}
    (hbound : Scope.Answers start bound) {before : List Item} {i : Item} {ms : List Mark}
    (hbefore : ∀ j ∈ before, j.Writable) (hms : ∀ m ∈ ms, m.Writable) :
    ∃ l s, Scope.Reached start before s ∧ Runs (upTo before i ms) ⟨{}, start⟩ ⟨l, s⟩ := by
  obtain ⟨s, hs, hitems⟩ :=
    runs_items hbound hbefore (show Scope.Reached start [] start from .start) {}
  obtain ⟨-, hasked⟩ := Mark.settleAll_of_answers hbound ms hs
  exact ⟨_, _, hasked, hitems.bind ((runs_front i _ s).bind (runs_marks hms _ s))⟩

end Writing

end

/-! ## Names as they are written -/

/-- While the items are written under name resolution, the name that comes behind the names `front`
of its item is written as the text, behind one space at most. The scope knows the items before then,
and no others. -/
def NameWritten (before : List Item) (i : Item) (after : List Item)
    (front : List (Text × Option Span)) (n : Text × Option Span) (u : Text) : Prop :=
  ∃ ms ns l l' gap, ms.filterMap Mark.name? = front.map Prod.fst ∧
    Writing.items (before ++ i :: after) = (do
      Writing.upTo before i ms
      Writing.word (.ident n.1 n.2)
      Writing.onFrom ns i after : Writing Resolver Unit) ∧
    (Writing.upTo before i ms).Runs ⟨{}, {}⟩ ⟨l, Resolver.after before⟩ ∧
    (Writing.word (.ident n.1 n.2)).Runs ⟨l, Resolver.after before⟩
      ⟨l', Resolver.after before⟩ ∧
    (gap = [] ∨ gap = " ") ∧ l'.text = l.text ++ gap ++ u

section

variable {before : List Item} {i : Item} {front back : List (Text × Option Span)}
  {n : Text × Option Span}

/-- A name among those of an item is one of its marks, behind those of the names before. -/
theorem Item.exists_mark (h : i.idents = front ++ n :: back) :
    ∃ ms ns, i.marks = ms ++ .ident n.1 :: ns ∧ ms.filterMap Mark.name? = front.map Prod.fst := by
  have hnames := i.names_eq_marks
  rw [h, List.map_append, List.map_cons] at hnames
  obtain ⟨ms, rest, hmarks, hms, hrest⟩ := List.filterMap_eq_append_iff.mp hnames.symm
  obtain ⟨ks, m, ns, rfl, hks, hm, -⟩ := List.filterMap_eq_cons_iff.mp hrest
  cases m with
  | ident k =>
      obtain rfl : k = n.1 := Option.some.inj hm
      refine ⟨ms ++ ks, ns, by rw [hmarks, List.append_assoc], ?_⟩
      rw [List.filterMap_append, hms, List.filterMap_eq_nil_iff.mpr hks, List.append_nil]
  | _ => cases hm

/-- What a settled name leaves on the layout. -/
theorem Layout.text_put_ofName (l : Layout) (b : Bool) (name : Text) :
    ∃ gap : Text, (gap = [] ∨ gap = " ") ∧ (l.put (Mark.ofName b name)).text = l.text ++ gap ++
      match if b then none else Primitive.ofName? name with
      | some p => p.display
      | none => name := by
  rw [Mark.ofName]
  cases (if b = true then none else Primitive.ofName? name) with
  | some p =>
      obtain ⟨gap, hgap, htext⟩ := l.text_makeRoom (.prim p)
      refine ⟨gap, hgap, ?_⟩
      rw [text_put_of_lexeme rfl, htext, Writing.text_primitive]
  | none =>
      obtain ⟨gap, hgap, htext⟩ := l.text_makeRoom (.ident name)
      refine ⟨gap, hgap, ?_⟩
      rw [text_put_of_lexeme (m := .ident name) rfl, htext]
      rfl

/-- Each name is written as what it stands for behind the items before. -/
theorem nameWritten (after : List Item) (hbefore : ∀ j ∈ before, j.Writable) (hi : i.Writable)
    (h : i.idents = front ++ n :: back) :
    NameWritten before i after front n
      (match if boundBefore before n.1 then none else Primitive.ofName? n.1 with
      | some p => p.display
      | none => n.1) := by
  obtain ⟨ms, ns, hmarks, hnames⟩ := Item.exists_mark h
  have hms : ∀ m ∈ ms, m.Writable := fun m hm =>
    hi.marks m (hmarks ▸ List.mem_append_left _ hm)
  obtain ⟨l, s, hs, hupTo⟩ := Writing.runs_upTo (i := i) Resolver.answers hbefore hms
  obtain rfl := Resolver.reached hs
  have hword := Writing.runs_ident n.1 l (Resolver.after before)
  have hsettle : (Mark.ident n.1).settle (Resolver.after before) =
      (Mark.ofName (boundBefore before n.1) n.1, Resolver.after before) := by
    rw [← Resolver.isBound_after]
    rfl
  rw [hsettle] at hword
  obtain ⟨gap, hgap, htext⟩ := l.text_put_ofName (boundBefore before n.1) n.1
  exact ⟨ms, ns, l, _, gap, hnames, Writing.items_eq_upTo hmarks, hupTo, hword, hgap, htext⟩

end

/-- The two walks over a program agree. Under any scope, the calls that writing items makes are for
each item in turn one question for each name of it, in the preorder of its words, and then its
registration. So if name resolution lets the items have a text, every name is bound by an item
before and is written as it is, or no item before binds it and it is written as the primitive that
it names. -/
theorem calls_formatItems {items : List Item} (hitems : ∀ i ∈ items, i.Writable) :
    (∀ {σ : Type} [Scope σ] (start : σ), formatItems items ({ inner := start } : Logged σ) =
      ((formatItems items start).1, ⟨(formatItems items start).2, items.flatMap Item.calls⟩)) ∧
    ∀ t, (formatItems items ({} : Resolver)).1 = .ok t →
      ∀ before i after, items = before ++ i :: after →
        ∀ front n back, i.idents = front ++ n :: back →
          boundBefore before n.1 = true ∧ NameWritten before i after front n n.1 ∨
          boundBefore before n.1 = false ∧ ∃ p, Primitive.ofName? n.1 = some p ∧
            NameWritten before i after front n p.display := by
  constructor
  · intro σ _ start
    obtain ⟨l, s, hplain, hlogged⟩ := Writing.runs_items_logged hitems {} start []
    have hsheet : (Writing.items items).onSheet start = (.ok (), ⟨l, s⟩) := hplain
    have hsheet' : (Writing.items items).onSheet ({ inner := start } : Logged σ) =
        (.ok (), ⟨l, ⟨s, items.flatMap Item.calls⟩⟩) := hlogged
    have hreports : Scope.diagnostics (⟨s, items.flatMap Item.calls⟩ : Logged σ) =
        Scope.diagnostics s := rfl
    rw [formatItems, formatItems, hsheet, hsheet']
    simp only [hreports]
    split <;> rfl
  · rintro t ht before i after rfl front n back hidents
    obtain ⟨r, hr, hformat⟩ := formatItems_of_writable Resolver.answers hitems
    have hfaults : Scope.diagnostics r = faultsBehind [] (before ++ i :: after) := by
      rw [Resolver.reached hr]
      exact Resolver.faults_after [] _
    have hnil : faultsBehind [] (before ++ i :: after) = [] := by
      rw [hformat, hfaults] at ht
      split at ht
      · assumption
      · cases ht
    obtain ⟨-, hsound, -⟩ := soundItems_append.mp (faultsBehind_eq_nil.mp hnil)
    have hwritten := nameWritten after
      (fun j hj => hitems j (List.mem_append_left _ hj)) (hitems i (by simp)) hidents
    rw [List.nil_append] at hsound
    cases hbound : boundBefore before n.1 with
    | true =>
        rw [hbound] at hwritten
        exact .inl ⟨rfl, hwritten⟩
    | false =>
        have hknown := hsound.1 n (by rw [hidents]; simp)
        rw [hbound] at hwritten hknown
        obtain ⟨p, hp⟩ := Option.isSome_iff_exists.mp (hknown.resolve_left Bool.false_ne_true)
        rw [if_neg Bool.false_ne_true, hp] at hwritten
        exact .inr ⟨rfl, p, hp, hwritten⟩

/-- A binding that shadows the primitive of its value, and then a modifier in front of a strand. The
first use of the name is written with a glyph, the second one is a name. -/
theorem calls_formatItems_shadowing : ∃ i j : Item,
    i = .binding "add" [.ident "add" none] none none ∧
    j = .words [.modified (.ident "table" none)
      (.strand [.ident "add" none, .funcArray [[], [.ident "dup" none]] none] none) none] none ∧
    (formatItems [i, j] ({ inner := {} } : Logged Preset)).2.calls = [.asked "add", .registered i,
      .asked "table", .asked "add", .asked "dup", .registered j] ∧
    (formatItems [i, j] ({} : Resolver)).1 = .ok "add = +\n⊞add_(|⋅)\n" ∧
    NameWritten [] i [j] [] ("add", none) "+" ∧
    NameWritten [i] j [] [("table", none)] ("add", none) "add" := by
  let i : Item := .binding "add" [.ident "add" none] none none
  let j : Item := .words [.modified (.ident "table" none)
    (.strand [.ident "add" none, .funcArray [[], [.ident "dup" none]] none] none) none] none
  have hitems : ∀ k ∈ [i, j], k.Writable := by decide +kernel
  obtain ⟨hlogged, hnames⟩ := calls_formatItems hitems
  have hformat : (formatItems [i, j] ({} : Resolver)).1 = .ok "add = +\n⊞add_(|⋅)\n" := by
    have htext : (formatItems [i, j] ({} : Resolver)).1.toOption =
        some (Text.ofString "add = +\n⊞add_(|⋅)\n") := by decide +kernel
    cases hresult : (formatItems [i, j] ({} : Resolver)).1 with
    | error f =>
        rw [hresult] at htext
        cases htext
    | ok t =>
        rw [hresult] at htext
        exact congrArg Except.ok (Option.some.inj htext)
  refine ⟨i, j, rfl, rfl, ?_, hformat, ?_, ?_⟩
  · exact congrArg (fun r => r.2.calls) (hlogged ({} : Preset))
  · rcases hnames _ hformat [] i [j] rfl [] _ [] rfl with ⟨hbound, -⟩ | ⟨-, p, hp, hwritten⟩
    · exact absurd hbound (by decide +kernel)
    · obtain rfl : Primitive.add = p := Option.some.inj hp
      exact hwritten
  · rcases hnames _ hformat [i] j [] rfl [("table", none)] ("add", none) [("dup", none)] rfl with
      ⟨-, hwritten⟩ | ⟨hbound, -⟩
    · exact hwritten
    · exact absurd hbound (by decide +kernel)

end GlyphFormat
