import GlyphFormat.Proofs.Grammar.Atoms
import GlyphFormat.Proofs.Grammar.LogicalLines
import GlyphFormat.Proofs.Scope.Answers

/-!
# Names among tokens

The names that a tree calls are those among its tokens, in order and at the same places
(`Derivation.uses`): no arm of the walk over the tree loses one or meets one twice. So what name
resolution reports about the items of a program is known from the tokens, line by line. A line that
begins with a name and `=` binds the name from the next line on, and `NameFault` says what is wrong
with a line behind others.
-/

namespace GlyphFormat

/-! ## Names in words -/

/-- The name that a token calls, with its place. -/
def Token.use? (path : Option Path) (t : Token) : Option (Text × Option Span) :=
  match t.lexeme with
  | .ident n => some (n, some (t.span path))
  | _ => none

theorem Token.use?_eq_some {path : Option Path} {t : Token} {n : Text × Option Span} :
    t.use? path = some n ↔ t.lexeme = .ident n.1 ∧ n.2 = some (t.span path) := by
  obtain ⟨name, span⟩ := n
  unfold use?
  cases t.lexeme <;> simp [eq_comm]

/-- The names in the words of a tree are those among its tokens. -/
theorem Derivation.uses (path : Option Path) {part : Part} {inside : Bool}
    (d : Derivation part inside) :
    (part.allWords (d.value path)).filterMap Word.ident? =
      d.tokens.filterMap (Token.use? path) := by
  refine d.filterMap_allWords (fun w hw => ?_) path fun t => ?_
  · cases w <;> first | rfl | cases hw
  · unfold Token.use? Token.atom?
    cases t.lexeme <;> rfl

/-! ## Names in lines -/

/-- A name and `=` stand at the front of the line. -/
def LineBinds (line : List Token) (name : Text) : Prop :=
  ∃ t e ts, line = t :: e :: ts ∧ t.lexeme = .ident name ∧ e.lexeme = .assign

/-- What is wrong with the names of a line behind other lines, and at which token. A name is unknown
unless a line before binds it or it is that of a primitive; the name that the line binds itself does
not count. A binding has no value if nothing behind `=` begins a word. -/
inductive NameFault (path : Option Path) (before : List (List Token)) (line : List Token) :
    Token → Diagnostic → Prop
  | unknown {front back : List Token} {t : Token} {name : Text} (hline : line = front ++ t :: back)
      (ht : t.lexeme = .ident name) (hown : front = [] → ∀ e ∈ back.head?, e.lexeme ≠ .assign)
      (hbound : ∀ l ∈ before, ¬LineBinds l name) (hprim : Primitive.ofName? name = none) :
      NameFault path before line t
        ⟨"Unknown identifier '" ++ name ++ "'", t.span path, .resolve⟩
  | noValue {t e : Token} {ts : List Token} {name : Text} (hline : line = t :: e :: ts)
      (ht : t.lexeme = .ident name) (he : e.lexeme = .assign)
      (hts : ∀ u ∈ ts, u.lexeme.startsWord = false) :
      NameFault path before line t
        ⟨"Binding '" ++ name ++ "' has no value", ⟨path, t.start, e.stop⟩, .resolve⟩

/-- The items and the lines bind the same names. -/
def SameBindings (done : List Item) (before : List (List Token)) : Prop :=
  ∀ n, boundBefore done n = true ↔ ∃ l ∈ before, LineBinds l n

/-- What stands behind a statement on its line. -/
def Behind (ts : List Token) : Prop :=
  ∀ t ∈ ts, t.lexeme.startsWord = false ∧ t.lexeme ≠ .assign

theorem Behind.ne_ident {ts : List Token} (h : Behind ts) {name : Text} :
    ∀ t ∈ ts, t.lexeme ≠ .ident name := by
  intro t ht hname
  have := (h t ht).1
  rw [hname] at this
  cases this

section Names

variable {path : Option Path} {done : List Item} {before : List (List Token)} {d : Diagnostic}
  {t : Token}

/-- What is reported about the names of tokens. -/
theorem mem_unknown {bound : Text → Bool} {ts : List Token} :
    d ∈ (ts.filterMap (Token.use? path)).filterMap (unknown? bound) ↔
      ∃ t ∈ ts, ∃ name, t.lexeme = .ident name ∧ bound name = false ∧
        Primitive.ofName? name = none ∧
        d = ⟨"Unknown identifier '" ++ name ++ "'", t.span path, .resolve⟩ := by
  simp only [List.mem_filterMap, Token.use?_eq_some]
  constructor
  · rintro ⟨⟨name, span⟩, ⟨t, ht, hname, rfl⟩, hd⟩
    unfold unknown? at hd
    split at hd
    · cases hd
    · rename_i hn
      rw [Bool.not_eq_true, Bool.or_eq_false_iff, Option.isSome_eq_false_iff,
        Option.isNone_iff_eq_none] at hn
      exact ⟨t, ht, name, hname, hn.1, hn.2, (Option.some.inj hd).symm⟩
  · rintro ⟨t, ht, name, hname, hbound, hprim, rfl⟩
    refine ⟨(name, some (t.span path)), ⟨t, ht, hname, rfl⟩, ?_⟩
    rw [unknown?, if_neg (by rw [hbound, hprim]; decide)]
    rfl

theorem SameBindings.eq_false_iff (h : SameBindings done before) {name : Text} :
    boundBefore done name = false ↔ ∀ l ∈ before, ¬LineBinds l name := by
  rw [← Bool.not_eq_true, h]
  simp only [not_exists, not_and]

end Names

namespace StatementTree

variable {path : Option Path} {done : List Item} {before : List (List Token)} {d : Diagnostic}
  {t : Token} {rest : List Token} {name : Text}

/-- The tokens where the words of a statement stand. -/
def valueTokens : StatementTree → List Token
  | .binding _ _ _ _ _ ws => ws.tokens
  | .words w ws => w.tokens ++ ws.tokens

theorem idents_item (path : Option Path) (s : StatementTree) :
    (s.item path).idents = s.valueTokens.filterMap (Token.use? path) := by
  cases s with
  | binding t e name ht he ws => exact ws.uses path
  | words w ws =>
      rw [valueTokens, List.filterMap_append, ← w.uses, ← ws.uses, ← List.filterMap_append]
      rfl

/-- No binding stands on a line of words. -/
theorem words_ne_assign (w : Derivation .word false) (ws : Derivation .words false)
    (hrest : Behind rest) : ∀ e ∈ (words w ws).tokens ++ rest, e.lexeme ≠ .assign := by
  have hwords : ∀ {part : Part} (d : Derivation part false), ∀ t ∈ d.tokens,
      t.lexeme ≠ .assign := fun d t ht hassign => by
    have := (d.derives none).inWords t ht
    rw [hassign] at this
    cases this
  refine List.forall_mem_append.mpr ⟨?_, fun e he => (hrest e he).2⟩
  exact List.forall_mem_append.mpr ⟨hwords w, hwords ws⟩

/-- A binding binds its name, on its line as in the tree. -/
theorem lineBinds_iff (path : Option Path) (s : StatementTree) (hrest : Behind rest) :
    LineBinds (s.tokens ++ rest) name ↔ (s.item path).binds name = true := by
  cases s with
  | binding t e n ht he ws =>
      refine Iff.trans ⟨?_, ?_⟩ (decide_eq_true_iff (p := n = name)).symm
      · rintro ⟨t', e', ts, hline, ht', -⟩
        obtain ⟨rfl, -⟩ := List.cons.inj hline
        exact Lexeme.ident.inj (ht.symm.trans ht')
      · rintro rfl
        exact ⟨t, e, ws.tokens ++ rest, rfl, ht, he⟩
  | words w ws =>
      refine iff_of_false ?_ nofun
      rintro ⟨t, e, ts, hline, -, he⟩
      exact words_ne_assign w ws hrest e (by rw [hline]; simp) he

/-- A name on a line does not stand behind the statement. -/
theorem mem_of_line {ts front back : List Token} (hrest : Behind rest)
    (ht : t.lexeme = .ident name) (hline : ts ++ rest = front ++ t :: back) : t ∈ ts := by
  have hmem : t ∈ ts ++ rest := by rw [hline]; simp
  exact (List.mem_append.mp hmem).resolve_right fun hmem => hrest.ne_ident t hmem ht

/-- Where a statement calls a name, the name is not the one that the line binds. -/
theorem mem_valueTokens_iff (s : StatementTree) (hrest : Behind rest)
    (ht : t.lexeme = .ident name) : t ∈ s.valueTokens ↔ ∃ front back,
      s.tokens ++ rest = front ++ t :: back ∧
        (front = [] → ∀ e ∈ back.head?, e.lexeme ≠ .assign) := by
  constructor
  · intro hmem
    obtain ⟨front, back, hts⟩ := List.append_of_mem hmem
    cases s with
    | binding u e n hu he ws =>
        replace hts : ws.tokens = front ++ t :: back := hts
        refine ⟨u :: e :: front, back ++ rest, ?_, fun hnil => by cases hnil⟩
        rw [tokens, hts]
        simp only [List.cons_append, List.append_assoc]
    | words w ws =>
        have hline : (words w ws).tokens ++ rest = front ++ t :: (back ++ rest) := by
          show (words w ws).valueTokens ++ rest = _
          rw [hts, List.append_assoc]
          rfl
        refine ⟨front, back ++ rest, hline, fun _ e he => words_ne_assign w ws hrest e ?_⟩
        rw [hline]
        exact List.mem_append_right _ (List.mem_cons_of_mem _ (List.mem_of_mem_head? he))
  · rintro ⟨front, back, hline, hown⟩
    cases s with
    | words w ws => exact mem_of_line hrest ht hline
    | binding u e n hu he ws =>
        -- In front of the words stand the name that is bound and the mark behind it.
        cases front with
        | nil =>
            obtain ⟨-, htail⟩ := List.cons.inj hline
            exact absurd he (hown rfl e (by rw [← htail]; rfl))
        | cons f front =>
            obtain ⟨-, htail⟩ := List.cons.inj hline
            cases front with
            | nil =>
                obtain ⟨rfl, -⟩ := List.cons.inj htail
                cases ht.symm.trans he
            | cons g front => exact mem_of_line hrest ht (List.cons.inj htail).2

/-- A binding has no value when no word stands behind it on the line. -/
theorem noValue?_iff (s : StatementTree) (hrest : Behind rest) :
    (s.item path).noValue? = some d ↔ ∃ t e ts name, s.tokens ++ rest = t :: e :: ts ∧
      t.lexeme = .ident name ∧ e.lexeme = .assign ∧ (∀ u ∈ ts, u.lexeme.startsWord = false) ∧
      d = ⟨"Binding '" ++ name ++ "' has no value", ⟨path, t.start, e.stop⟩, .resolve⟩ := by
  cases s with
  | binding t e name ht he ws =>
      cases ws with
      | noWords g hg =>
          obtain rfl := hg.2 rfl
          constructor
          · intro hd
            refine ⟨t, e, rest, name, rfl, ht, he, fun u hu => (hrest u hu).1, ?_⟩
            exact (Option.some.inj hd).symm
          · rintro ⟨t', e', ts, name', hline, ht', -, -, rfl⟩
            obtain ⟨rfl, htail⟩ := List.cons.inj hline
            obtain ⟨rfl, -⟩ := List.cons.inj htail
            obtain rfl := Lexeme.ident.inj (ht.symm.trans ht')
            rfl
      | moreWords g hg w ws =>
          refine iff_of_false (fun hd => by cases hd) ?_
          rintro ⟨t', e', ts, name', hline, -, -, hts, -⟩
          obtain ⟨u, us, hus, hu⟩ := w.first_word
          obtain ⟨-, htail⟩ := List.cons.inj hline
          obtain ⟨-, rfl⟩ := List.cons.inj htail
          have hmem : u ∈ (Derivation.moreWords g hg w ws).tokens ++ rest := by
            rw [Derivation.tokens, hus]
            simp
          exact absurd hu (by rw [hts u hmem]; decide)
  | words w ws =>
      refine iff_of_false (fun hd => by cases hd) ?_
      rintro ⟨t, e, ts, name, hline, ht, he, -⟩
      have := ((words w ws).lineBinds_iff path hrest).mp ⟨t, e, ts, hline, ht, he⟩
      cases this

/-- What is reported about a statement is what is wrong with the names on its line. -/
theorem mem_faults (s : StatementTree) (h : SameBindings done before) (hrest : Behind rest) :
    d ∈ (s.item path).faults (boundBefore done) ↔
      ∃ t, NameFault path before (s.tokens ++ rest) t d := by
  rw [Item.faults, List.mem_append, idents_item, mem_unknown, Option.mem_toList,
    s.noValue?_iff hrest]
  constructor
  · rintro (⟨t, ht, name, hname, hbound, hprim, rfl⟩ | ⟨t, e, ts, name, hline, ht, he, hts, rfl⟩)
    · obtain ⟨front, back, hline, hown⟩ := (s.mem_valueTokens_iff hrest hname).mp ht
      exact ⟨t, .unknown hline hname hown (h.eq_false_iff.mp hbound) hprim⟩
    · exact ⟨t, .noValue hline ht he hts⟩
  · rintro ⟨t, hfault⟩
    cases hfault with
    | unknown hline hname hown hbound hprim =>
        exact Or.inl ⟨t, (s.mem_valueTokens_iff hrest hname).mpr ⟨_, _, hline, hown⟩, _, hname,
          h.eq_false_iff.mpr hbound, hprim, rfl⟩
    | noValue hline ht he hts => exact Or.inr ⟨t, _, _, _, hline, ht, he, hts, rfl⟩

end StatementTree

namespace LineTree

variable {path : Option Path} {done : List Item} {before : List (List Token)} {d : Diagnostic}
  {t stop : Token} {name : Text}

/-- The items of a line, or none of a blank one. -/
def items? (path : Option Path) : Option LineTree → List Item
  | none => []
  | some l => l.items path

theorem behind_stop (h : stop.EndsLine) : Behind [stop] := by
  refine List.forall_mem_singleton.mpr ?_
  rcases h with h | h <;> rw [h] <;> exact ⟨rfl, nofun⟩

theorem behind_comment {text : Text} (ht : t.lexeme = .comment text) (h : stop.EndsLine) :
    Behind [t, stop] :=
  List.forall_mem_cons.mpr ⟨by rw [ht]; exact ⟨rfl, nofun⟩, behind_stop h⟩

/-- Nothing is wrong with the names of a line where no word stands. -/
theorem not_nameFault_of_behind {line : List Token} (h : Behind line) :
    ¬NameFault path before line t d := by
  intro hfault
  cases hfault with
  | unknown hline ht _ _ _ => exact h.ne_ident t (by rw [hline]; simp) ht
  | noValue hline ht _ _ => exact h.ne_ident t (by rw [hline]; simp) ht

theorem not_lineBinds_of_behind {line : List Token} (h : Behind line) : ¬LineBinds line name := by
  rintro ⟨t, e, ts, hline, ht, -⟩
  exact h.ne_ident t (by rw [hline]; simp) ht

/-- A line holds a statement, which alone matters to name resolution, or no word. -/
theorem statement_or_behind (path : Option Path) (l : Option LineTree) (hstop : stop.EndsLine) :
    (∃ (s : StatementTree) (rest : List Token),
        tokens? l ++ [stop] = s.tokens ++ rest ∧ Behind rest ∧
        (∀ done, faultsBehind done (items? path l) = (s.item path).faults (boundBefore done)) ∧
        ∀ n, boundBefore (items? path l) n = (s.item path).binds n) ∨
      (Behind (tokens? l ++ [stop]) ∧ (∀ done, faultsBehind done (items? path l) = []) ∧
        ∀ n, boundBefore (items? path l) n = false) := by
  cases l with
  | none => exact Or.inr ⟨behind_stop hstop, fun _ => rfl, fun _ => rfl⟩
  | some l =>
      cases l with
      | comment t text ht =>
          exact Or.inr ⟨behind_comment ht hstop, fun _ => rfl, fun _ => rfl⟩
      | statement s =>
          exact Or.inl ⟨s, [stop], rfl, behind_stop hstop, fun _ => List.append_nil _,
            fun _ => Bool.or_false _⟩
      | commented s t text ht =>
          exact Or.inl ⟨s, [t, stop], List.append_assoc _ _ _, behind_comment ht hstop,
            fun _ => List.append_nil _, fun _ => Bool.or_false _⟩

/-- What is reported about a line is what is wrong with its names. -/
theorem mem_faults (l : Option LineTree) (h : SameBindings done before) (hstop : stop.EndsLine) :
    d ∈ faultsBehind done (items? path l) ↔
      ∃ t, NameFault path before (tokens? l ++ [stop]) t d := by
  rcases statement_or_behind path l hstop with ⟨s, rest, hline, hrest, hfaults, -⟩ |
    ⟨hbehind, hfaults, -⟩
  · rw [hline, hfaults, s.mem_faults h hrest]
  · rw [hfaults]
    refine iff_of_false List.not_mem_nil ?_
    rintro ⟨t, hfault⟩
    exact not_nameFault_of_behind hbehind hfault

/-- The items of a line bind what the line binds. -/
theorem sameBindings (path : Option Path) (l : Option LineTree) (h : SameBindings done before)
    (hstop : stop.EndsLine) :
    SameBindings (done ++ items? path l) (before ++ [tokens? l ++ [stop]]) := by
  intro n
  have hline : boundBefore (items? path l) n = true ↔ LineBinds (tokens? l ++ [stop]) n := by
    rcases statement_or_behind path l hstop with ⟨s, rest, hline, hrest, -, hbinds⟩ |
      ⟨hbehind, -, hbinds⟩
    · rw [hline, hbinds, s.lineBinds_iff path hrest]
    · rw [hbinds]
      exact iff_of_false nofun (not_lineBinds_of_behind hbehind)
  rw [boundBefore_append_all, Bool.or_eq_true, h n, hline]
  simp only [List.mem_append, List.mem_singleton, or_and_right, exists_or, exists_eq_left]

end LineTree

/-! ## Names in programs -/

/-- A list is split in front of its first element or further on. -/
theorem exists_split_cons {α : Type} {a : α} {as : List α} {P : List α → α → Prop} :
    (∃ front b back, a :: as = front ++ b :: back ∧ P front b) ↔
      P [] a ∨ ∃ front b back, as = front ++ b :: back ∧ P (a :: front) b := by
  constructor
  · rintro ⟨front, b, back, h, hP⟩
    cases front with
    | nil =>
        obtain ⟨rfl, -⟩ := List.cons.inj h
        exact Or.inl hP
    | cons c front =>
        obtain ⟨rfl, htail⟩ := List.cons.inj h
        exact Or.inr ⟨front, b, back, htail, hP⟩
  · rintro (hP | ⟨front, b, back, rfl, hP⟩)
    · exact ⟨[], a, as, rfl, hP⟩
    · exact ⟨a :: front, b, back, rfl, hP⟩

namespace Row

variable {path : Option Path} {done : List Item} {before : List (List Token)} {d : Diagnostic}
  {stop : Token}

/-- The items of rows are those of the first line and of the other rows. An item for blank rows
between them has nothing to report and binds nothing. -/
theorem items_cons (path : Option Path) (behindLine : Bool) (r : Row) (rows : List Row)
    (last : Option LineTree) : ∃ gap behindLine',
      items path behindLine (r :: rows) last =
        LineTree.items? path r.line ++ (gap ++ items path behindLine' rows last) ∧
      (∀ done, faultsBehind done gap = []) ∧ ∀ n, boundBefore gap n = false := by
  obtain ⟨line, newline, hnewline⟩ := r
  cases line with
  | some l => exact ⟨[], true, rfl, fun _ => rfl, fun _ => rfl⟩
  | none =>
      refine ⟨_, false, rfl, fun done => ?_, fun n => ?_⟩ <;> split <;> rfl

/-- What is reported about rows is what is wrong with the names of their lines. By induction on the
rows: what the items of a line bind, the line binds. -/
theorem mem_faults (rows : List Row) (last : Option LineTree) (behindLine : Bool)
    (h : SameBindings done before) (hstop : stop.EndsLine) :
    d ∈ faultsBehind done (items path behindLine rows last) ↔
      ∃ front line back, rows.map tokens ++ [LineTree.tokens? last ++ [stop]] =
        front ++ line :: back ∧ ∃ t, NameFault path (before ++ front) line t d := by
  induction rows generalizing done before behindLine with
  | nil =>
      have hitems : items path behindLine [] last = LineTree.items? path last := by
        cases last <;> rfl
      rw [hitems, LineTree.mem_faults last h hstop, List.map_nil, List.nil_append,
        exists_split_cons, List.append_nil]
      refine (or_iff_left ?_).symm
      rintro ⟨front, line, back, hnil, -⟩
      simp at hnil
  | cons r rows ih =>
      obtain ⟨gap, behindLine', hitems, hsilent, hbinds⟩ := items_cons path behindLine r rows last
      have hgap : SameBindings (done ++ LineTree.items? path r.line ++ gap)
          (before ++ [r.tokens]) := by
        have hline := LineTree.sameBindings path r.line h (Or.inl r.newline)
        rw [SameBindings, boundBefore_append_all]
        simpa only [hbinds, Bool.or_false, SameBindings, tokens] using hline
      rw [hitems, faultsBehind_append, faultsBehind_append, hsilent, List.nil_append,
        List.mem_append, LineTree.mem_faults r.line h (Or.inl r.newline), ih _ hgap,
        List.map_cons, List.cons_append, exists_split_cons, List.append_nil]
      simp only [List.append_assoc, List.singleton_append]
      rfl

end Row

/-! ## The order of what is reported -/

section Order

variable {path : Option Path} {done : List Item} {stop : Token}

/-- What is reported at tokens stands where they do. -/
theorem starts_filterMap {f : Token → Option Diagnostic}
    (hf : ∀ t d, f t = some d → d.span.start = t.start) (ts : List Token) :
    ((ts.filterMap f).map (·.span.start)).Sublist (ts.map Token.start) := by
  induction ts with
  | nil => exact .slnil
  | cons t ts ih =>
      cases h : f t with
      | none =>
          rw [List.filterMap_cons_none h]
          exact ih.cons _
      | some d =>
          rw [List.filterMap_cons_some h, List.map_cons, List.map_cons, hf t d h]
          exact ih.cons_cons _

theorem starts_unknown (path : Option Path) (bound : Text → Bool) (ts : List Token) :
    (((ts.filterMap (Token.use? path)).filterMap (unknown? bound)).map (·.span.start)).Sublist
      (ts.map Token.start) := by
  rw [List.filterMap_filterMap]
  refine starts_filterMap (fun t d h => ?_) ts
  obtain ⟨⟨name, span⟩, huse, hd⟩ := Option.bind_eq_some_iff.mp h
  obtain ⟨-, rfl⟩ := Token.use?_eq_some.mp huse
  unfold unknown? at hd
  split at hd
  · cases hd
  · rw [← Option.some.inj hd]
    rfl

theorem StatementTree.starts_faults (s : StatementTree) (bound : Text → Bool) :
    (((s.item path).faults bound).map (·.span.start)).Sublist (s.tokens.map Token.start) := by
  have hunknown := starts_unknown path bound s.valueTokens
  rw [Item.faults, idents_item, List.map_append]
  cases s with
  | binding t e name ht he ws =>
      cases ws with
      | noWords g hg =>
          obtain rfl := hg.2 rfl
          exact List.singleton_sublist.mpr List.mem_cons_self
      | moreWords g hg w ws =>
          show List.Sublist (_ ++ []) _
          rw [List.append_nil]
          exact (hunknown.cons _).cons _
  | words w ws =>
      show List.Sublist (_ ++ []) _
      rw [List.append_nil]
      exact hunknown

theorem LineTree.starts_faults (l : Option LineTree) (hstop : stop.EndsLine) :
    ((faultsBehind done (items? path l)).map (·.span.start)).Sublist
      ((tokens? l ++ [stop]).map Token.start) := by
  rcases statement_or_behind path l hstop with ⟨s, rest, hline, -, hfaults, -⟩ | ⟨-, hfaults, -⟩
  · rw [hline, hfaults, List.map_append]
    exact (s.starts_faults _).trans (List.sublist_append_left _ _)
  · rw [hfaults]
    exact List.nil_sublist _

theorem Row.starts_faults (rows : List Row) (last : Option LineTree) (behindLine : Bool)
    (hstop : stop.EndsLine) :
    ((faultsBehind done (items path behindLine rows last)).map (·.span.start)).Sublist
      ((rows.flatMap tokens ++ (LineTree.tokens? last ++ [stop])).map Token.start) := by
  induction rows generalizing done behindLine with
  | nil =>
      have hitems : items path behindLine [] last = LineTree.items? path last := by
        cases last <;> rfl
      rw [hitems]
      exact LineTree.starts_faults last hstop
  | cons r rows ih =>
      obtain ⟨gap, behindLine', hitems, hsilent, -⟩ := items_cons path behindLine r rows last
      rw [hitems, faultsBehind_append, faultsBehind_append, hsilent, List.nil_append,
        List.map_append, List.flatMap_cons, List.append_assoc r.tokens, List.map_append]
      exact (LineTree.starts_faults r.line (Or.inl r.newline)).append (ih _)

end Order

end GlyphFormat
