import GlyphFormat.Proofs.Grammar.Names
import GlyphFormat.Proofs.Token.Places
import Mathlib.Data.List.Forall2

/-!
# What spans mark

Every word of a tree is made of tokens of its own (`Word.Built`), and its span runs from the start
of the first to the stop of the last. The tokens of its children are groups of these, one behind the
other (`Derivation.groups`), so their spans lie inside its own, in order and apart from each other,
as tokens do not overlap (`Groups.holds`). That holds on every level of a tree, since every word in
a word is made of some of its tokens in a row (`Word.Built.of_mem`).
-/

namespace GlyphFormat

/-! ## Spans -/

def Word.span? : Word → Option Span
  | .number _ s | .char _ s | .string _ s | .ident _ s | .selector _ s | .prim _ s | .strand _ s
  | .array _ s | .func _ s | .funcArray _ s | .modified _ _ s => s
  | .missing => none

def Item.span? : Item → Option Span
  | .words _ s | .binding _ _ _ s | .comment _ s | .newlines s => s
  | .missing => none

/-- The spans of what an item is made of: of the name that it binds, and of its words. -/
def Item.partSpans? (i : Item) : List (Option Span) :=
  (match i with
    | .binding _ _ nameSpan _ => [nameSpan]
    | _ => []) ++ i.topWords.map Word.span?

/-- The spans lie inside the outer one, in order and without overlap. -/
structure Span.Holds (outer : Span) (inner : List Span) : Prop where
  inside : ∀ s ∈ inner, outer.start ≤ s.start ∧ s.stop ≤ outer.stop
  apart : inner.Pairwise fun s t => s.stop ≤ t.start

/-! ## Groups of tokens -/

/-- The groups stand among the tokens, one behind the other. -/
inductive Groups : List (List Token) → List Token → Prop
  | nil (ts : List Token) : Groups [] ts
  | cons {us ts : List Token} {tss : List (List Token)} (g : List Token) (h : Groups tss ts) :
      Groups (us :: tss) (g ++ (us ++ ts))

namespace Groups

variable {tss uss : List (List Token)} {ts us : List Token}

theorem front (g : List Token) (h : Groups tss ts) : Groups tss (g ++ ts) := by
  cases h with
  | nil => exact .nil _
  | cons g' h =>
      rw [← List.append_assoc]
      exact .cons (g ++ g') h

theorem append (h : Groups tss ts) (h' : Groups uss us) : Groups (tss ++ uss) (ts ++ us) := by
  induction h with
  | nil ts => exact h'.front ts
  | cons g _ ih =>
      rw [List.append_assoc, List.append_assoc]
      exact .cons g ih

theorem behind (h : Groups tss ts) (us : List Token) : Groups tss (ts ++ us) := by
  have := h.append (.nil us)
  rwa [List.append_nil] at this

theorem single (ts : List Token) : Groups [ts] ts := by
  have : Groups [ts] ([] ++ (ts ++ [])) := .cons [] (.nil [])
  rwa [List.append_nil] at this

theorem isInfix (h : Groups tss ts) : ∀ us ∈ tss, us <:+: ts := by
  induction h with
  | nil => exact nofun
  | @cons us ts tss g _ ih =>
      refine List.forall_mem_cons.mpr ⟨⟨g, ts, by rw [List.append_assoc]⟩, fun vs hvs => ?_⟩
      exact (ih vs hvs).trans ⟨g ++ us, [], by simp⟩

end Groups

/-- The tokens do not overlap. -/
def TokensApart (ts : List Token) : Prop :=
  (ts.Pairwise fun t u => t.start < u.start ∧ t.stop ≤ u.start) ∧ ∀ t ∈ ts, t.start ≤ t.stop

theorem TokensApart.of_row {ts us : List Token} (h : TokensApart ts) (hus : us <:+: ts) :
    TokensApart us :=
  ⟨h.1.sublist hus.sublist, fun t ht => h.2 t (hus.sublist.subset ht)⟩

theorem Token.spanOver_eq {path : Option Path} {ts : List Token} {first last : Token}
    (hfirst : ts.head? = some first) (hlast : ts.getLast? = some last) :
    spanOver path ts = ⟨path, first.start, last.stop⟩ := by
  rw [spanOver, hfirst, hlast]
  rfl

theorem exists_first_last {ts : List Token} (hne : ts ≠ []) :
    ∃ first last, ts.head? = some first ∧ ts.getLast? = some last :=
  ⟨_, _, List.head?_eq_some_head hne, List.getLast?_eq_some_getLast hne⟩

/-- A token lies inside the span of the tokens around it. -/
theorem TokensApart.bounds {path : Option Path} {ts : List Token} (h : TokensApart ts) {t : Token}
    (ht : t ∈ ts) : (Token.spanOver path ts).start ≤ t.start ∧
      t.stop ≤ (Token.spanOver path ts).stop := by
  obtain ⟨first, last, hfirst, hlast⟩ := exists_first_last (List.ne_nil_of_mem ht)
  rw [Token.spanOver_eq hfirst hlast]
  constructor
  · obtain ⟨us, rfl⟩ := List.head?_eq_some_iff.mp hfirst
    rcases List.mem_cons.mp ht with rfl | ht
    · exact le_refl _
    · exact (List.rel_of_pairwise_cons h.1 ht).1.le
  · obtain ⟨us, rfl⟩ := List.getLast?_eq_some_iff.mp hlast
    rcases List.mem_append.mp ht with ht | ht
    · have hlast := (List.pairwise_append.mp h.1).2.2 t ht last (by simp)
      exact hlast.2.trans (h.2 last (by simp))
    · rw [List.mem_singleton.mp ht]

/-- The spans of groups of tokens lie inside the span of all. -/
theorem Groups.holds {path : Option Path} {tss : List (List Token)} {ts : List Token}
    (h : Groups tss ts) (hne : ∀ us ∈ tss, us ≠ []) (hts : TokensApart ts) :
    (Token.spanOver path ts).Holds (tss.map (Token.spanOver path)) := by
  constructor
  · intro span hspan
    obtain ⟨us, hus, rfl⟩ := List.mem_map.mp hspan
    obtain ⟨first, last, hfirst, hlast⟩ := exists_first_last (hne us hus)
    have hsub := (h.isInfix us hus).sublist.subset
    rw [Token.spanOver_eq hfirst hlast]
    exact ⟨(hts.bounds (hsub (List.mem_of_mem_head? hfirst))).1,
      (hts.bounds (hsub (List.mem_of_mem_getLast? hlast))).2⟩
  · induction h with
    | nil => exact .nil
    | @cons us ts tss g h ih =>
        have hrest : TokensApart ts := hts.of_row ⟨g ++ us, [], by simp⟩
        refine .cons (fun span hspan => ?_) (ih (List.forall_mem_cons.mp hne).2 hrest)
        obtain ⟨vs, hvs, rfl⟩ := List.mem_map.mp hspan
        obtain ⟨first, last, hfirst, hlast⟩ := exists_first_last (hne us List.mem_cons_self)
        obtain ⟨first', last', hfirst', hlast'⟩ :=
          exists_first_last (hne vs (List.mem_cons_of_mem us hvs))
        rw [Token.spanOver_eq hfirst hlast, Token.spanOver_eq hfirst' hlast']
        have hbehind := (List.pairwise_append.mp (List.pairwise_append.mp hts.1).2.1).2.2
        exact (hbehind last (List.mem_of_mem_getLast? hlast) first'
          ((h.isInfix vs hvs).sublist.subset (List.mem_of_mem_head? hfirst'))).2

/-! ## Words and their tokens -/

/-- The tokens make up the word, which may be a part of another word. -/
inductive Word.Built (path : Option Path) : Word → List Token → Prop
  | word {inside : Bool} (d : Derivation .word inside) : Built path (d.value path) d.tokens
  | term {leads inside : Bool} (d : Derivation (.term leads) inside) :
      Built path (d.value path) d.tokens

/-- The words that a part holds, without the words in them; of a word its children. -/
def Part.topWords : (part : Part) → part.Value → List Word
  | .words, ws | .members, ws => ws
  | .word, w | .term _, w => w.children
  | .bodies, bs => bs.flatten

theorem exists_of_mem {α β : Type} {R : α → β → Prop} {as : List α} {bs : List β}
    (h : List.Forall₂ R as bs) {a : α} (ha : a ∈ as) : ∃ b ∈ bs, R a b := by
  induction h with
  | nil => cases ha
  | cons hr _ ih =>
      rcases List.mem_cons.mp ha with rfl | ha
      · exact ⟨_, List.mem_cons_self, hr⟩
      · obtain ⟨b, hb, hr⟩ := ih ha
        exact ⟨b, List.mem_cons_of_mem _ hb, hr⟩

namespace Derivation

variable {path : Option Path} {part : Part} {inside leads : Bool}

theorem children_leaf (path : Option Path) (t : Token) : (t.leaf path).children = [] := by
  unfold Token.leaf Token.atom?
  cases t.lexeme <;> rfl

/-- The children of a function are the words of its bodies. -/
theorem built_alternatives {b : List Word} {bs : List (List Word)} {tss : List (List Token)}
    (span : Span) (h : List.Forall₂ (Word.Built path) (b ++ bs.flatten) tss) :
    List.Forall₂ (Word.Built path) (alternatives b bs span).children tss := by
  cases bs with
  | nil => rwa [List.flatten_nil, List.append_nil] at h
  | cons c cs => exact h

theorem built_leaf {t : Token} (ht : t.lexeme.isAtom = true) : (t.leaf path).Built path [t] :=
  .term (show Derivation (.term false) false from .atom t ht nofun)

theorem word_ne_nil (d : Derivation .word inside) : d.tokens ≠ [] := by
  obtain ⟨t, us, hus, -⟩ := d.first_word
  rw [hus]
  exact nofun

theorem term_ne_nil (d : Derivation (.term leads) inside) : d.tokens ≠ [] := by
  obtain ⟨t, us, hus, -⟩ := d.first_term
  rw [hus]
  exact nofun

/-- The words that a part holds are made of groups of its tokens. -/
theorem groups (path : Option Path) (d : Derivation part inside) :
    ∃ tss, List.Forall₂ (Word.Built path) (part.topWords (d.value path)) tss ∧
      Groups tss d.tokens := by
  induction d with
  | noWords g hg => exact ⟨[], .nil, .nil g⟩
  | moreWords g hg w ws _ ih =>
      obtain ⟨tss, hbuilt, hgroups⟩ := ih
      exact ⟨w.tokens :: tss, .cons (.word w) hbuilt, .cons g hgroups⟩
  | modified t ht g hg w _ =>
      refine ⟨[[t], w.tokens], .cons (built_leaf (Lexeme.isAtom_of_isModifier ht))
        (.cons (.word w) .nil), ?_⟩
      exact .cons [] ((Groups.single w.tokens).front g)
  | strand w ws ihw ih =>
      obtain ⟨tss, hbuilt, hgroups⟩ := ih
      rw [value, tokens]
      cases hvs : (ws.value path : List Word) with
      | nil =>
          -- a strand of one term is the term
          obtain ⟨tss, hbuilt, hgroups⟩ := ihw
          exact ⟨tss, hbuilt, hgroups.behind ws.tokens⟩
      | cons v vs =>
          rw [hvs] at hbuilt
          exact ⟨w.tokens :: tss, .cons (.term w) hbuilt, .cons [] hgroups⟩
  | noMembers => exact ⟨[], .nil, .nil []⟩
  | moreMembers t ht g hg w ws _ ih =>
      obtain ⟨tss, hbuilt, hgroups⟩ := ih
      exact ⟨w.tokens :: tss, .cons (.term w) hbuilt, .cons (t :: g) hgroups⟩
  | atom t ht hm =>
      refine ⟨[], ?_, .nil [t]⟩
      show List.Forall₂ (Word.Built path) (t.leaf path).children []
      rw [children_leaf]
      exact .nil
  | array o ho ws t ht ih =>
      obtain ⟨tss, hbuilt, hgroups⟩ := ih
      exact ⟨tss, hbuilt, (hgroups.behind [t]).front [o]⟩
  | func o ho b bs t ht ihb ihbs =>
      obtain ⟨tss, hbuilt, hgroups⟩ := ihb
      obtain ⟨uss, hbuilt', hgroups'⟩ := ihbs
      refine ⟨tss ++ uss, ?_, (hgroups.append (hgroups'.behind [t])).front [o]⟩
      exact built_alternatives _ (List.rel_append hbuilt hbuilt')
  | noBodies => exact ⟨[], .nil, .nil []⟩
  | moreBodies t ht b bs ihb ihbs =>
      obtain ⟨tss, hbuilt, hgroups⟩ := ihb
      obtain ⟨uss, hbuilt', hgroups'⟩ := ihbs
      exact ⟨tss ++ uss, List.rel_append hbuilt hbuilt', (hgroups.append hgroups').front [t]⟩

end Derivation

namespace Word

variable {path : Option Path} {w v : Word} {ts : List Token}

theorem sizeOf_child_lt (h : v ∈ w.children) : sizeOf v < sizeOf w := by
  cases w with
  | strand ws span | array ws span | func ws span =>
      have := List.sizeOf_lt_of_mem (show v ∈ ws from h)
      simp only [strand.sizeOf_spec, array.sizeOf_spec, func.sizeOf_spec]
      omega
  | funcArray bs span =>
      obtain ⟨b, hb, hv⟩ := List.mem_flatten.mp h
      have := List.sizeOf_lt_of_mem hv
      have := List.sizeOf_lt_of_mem hb
      simp only [funcArray.sizeOf_spec]
      omega
  | modified m w span =>
      simp only [modified.sizeOf_spec]
      rcases List.mem_cons.mp h with rfl | h
      · omega
      · rw [List.mem_singleton.mp h]
        omega
  | _ => cases h

namespace Built

/-- The children of a word are made of groups of its tokens. -/
theorem groups (h : w.Built path ts) :
    ∃ tss, List.Forall₂ (Built path) w.children tss ∧ Groups tss ts := by
  cases h with
  | word d | term d => exact d.groups path

/-- Every word in a word is made of some of its tokens, which stand in a row. By recursion from
word to child. -/
theorem of_mem {w v : Word} {ts : List Token} (h : w.Built path ts) (hv : v ∈ w.preorder) :
    ∃ us, us <:+: ts ∧ v.Built path us := by
  rw [preorder_eq] at hv
  rcases List.mem_cons.mp hv with rfl | hv
  · exact ⟨ts, List.infix_refl ts, h⟩
  rw [preorderAll_eq_flatMap] at hv
  obtain ⟨c, hc, hv⟩ := List.mem_flatMap.mp hv
  obtain ⟨tss, hbuilt, hgroups⟩ := h.groups
  obtain ⟨us, hus, hcbuilt⟩ := exists_of_mem hbuilt hc
  have hlt := sizeOf_child_lt hc
  obtain ⟨vs, hvs, hvbuilt⟩ := hcbuilt.of_mem hv
  exact ⟨vs, hvs.trans (hgroups.isInfix us hus), hvbuilt⟩
termination_by sizeOf w

theorem span_leaf {t : Token} (ht : t.lexeme.isAtom = true) :
    (t.leaf path).span? = some (Token.spanOver path [t]) := by
  unfold Token.leaf Token.atom?
  cases hl : t.lexeme <;> rw [hl] at ht <;> first | rfl | cases ht

theorem span_term {leads inside : Bool} (d : Derivation (.term leads) inside) :
    Word.span? (d.value path) = some (Token.spanOver path d.tokens) := by
  cases d with
  | atom t ht hm => exact span_leaf ht
  | array o ho ws t ht => rfl
  | func o ho b bs t ht => cases bs <;> rfl

/-- The span of a word runs from its first token to its last. -/
theorem span_eq (h : w.Built path ts) : w.span? = some (Token.spanOver path ts) := by
  cases h with
  | term d => exact span_term d
  | word d =>
      cases d with
      | modified t ht g hg w => rfl
      | strand w ws =>
          cases ws with
          | noMembers =>
              rw [Derivation.tokens, Derivation.tokens, List.append_nil]
              exact span_term w
          | moreMembers t ht g hg v vs => rfl

theorem ne_nil (h : w.Built path ts) : ts ≠ [] := by
  cases h with
  | word d => exact d.word_ne_nil
  | term d => exact d.term_ne_nil

/-- The tokens of a word derive it. -/
theorem derives (h : w.Built path ts) :
    ∃ inside, Derives path inside (.word w) ts ∨ Derives path inside (.term w) ts := by
  cases h with
  | word d => exact ⟨_, .inl (d.derives path)⟩
  | term d => exact ⟨_, .inr (d.derives path)⟩

/-- The spans of words are those of their tokens. -/
theorem spans {ws : List Word} {tss : List (List Token)} (h : List.Forall₂ (Built path) ws tss) :
    ws.map span? = (tss.map (Token.spanOver path)).map some ∧ ∀ us ∈ tss, us ≠ [] := by
  induction h with
  | nil => exact ⟨rfl, nofun⟩
  | cons hw _ ih =>
      rw [List.map_cons, List.map_cons, List.map_cons, hw.span_eq, ih.1]
      exact ⟨rfl, List.forall_mem_cons.mpr ⟨hw.ne_nil, ih.2⟩⟩

/-- The spans of the children lie inside that of the word. -/
theorem holds (h : w.Built path ts) (hts : TokensApart ts) :
    ∃ spans, w.children.map span? = spans.map some ∧ (Token.spanOver path ts).Holds spans := by
  obtain ⟨tss, hbuilt, hgroups⟩ := h.groups
  obtain ⟨hspans, hne⟩ := Built.spans hbuilt
  exact ⟨_, hspans, hgroups.holds hne hts⟩

end Built

end Word

/-! ## Items and their tokens -/

namespace StatementTree

variable {path : Option Path}

/-- The words of a statement, as a part of the grammar. -/
theorem words_eq (path : Option Path) (s : StatementTree) :
    ∃ (g : List Token) (d : Derivation .words false), s.tokens = g ++ d.tokens ∧
      (s.item path).topWords = d.value path := by
  cases s with
  | binding t e name ht he ws => exact ⟨[t, e], ws, rfl, rfl⟩
  | words w ws => exact ⟨[], .moreWords [] .nil w ws, rfl, rfl⟩

/-- Every word of a statement is made of some of its tokens, which stand in a row. -/
theorem built_of_mem (s : StatementTree) {w : Word} (hw : w ∈ (s.item path).allWords) :
    ∃ us, us <:+: s.tokens ∧ w.Built path us := by
  obtain ⟨g, d, htokens, hwords⟩ := s.words_eq path
  obtain ⟨tss, hbuilt, hgroups⟩ := d.groups path
  rw [Item.allWords, Word.preorderAll_eq_flatMap, hwords] at hw
  obtain ⟨c, hc, hw⟩ := List.mem_flatMap.mp hw
  obtain ⟨us, hus, hcbuilt⟩ := exists_of_mem hbuilt hc
  obtain ⟨vs, hvs, hwbuilt⟩ := hcbuilt.of_mem hw
  refine ⟨vs, hvs.trans ?_, hwbuilt⟩
  rw [htokens]
  exact (hgroups.front g).isInfix us hus

/-- The spans of the parts of a statement lie inside its own. -/
theorem holds (s : StatementTree) (hts : TokensApart s.tokens) :
    ∃ spans, (s.item path).partSpans? = spans.map some ∧
      (Token.spanOver path s.tokens).Holds spans := by
  cases s with
  | binding t e name ht he ws =>
      obtain ⟨tss, hbuilt, hgroups⟩ := ws.groups path
      obtain ⟨hspans, hne⟩ := Word.Built.spans hbuilt
      have hall : Groups ([t] :: tss) (t :: e :: ws.tokens) := .cons [] (hgroups.front [e])
      refine ⟨([t] :: tss).map (Token.spanOver path), congrArg (some (t.span path) :: ·) hspans, ?_⟩
      exact hall.holds (List.forall_mem_cons.mpr ⟨List.cons_ne_nil _ _, hne⟩) hts
  | words w ws =>
      obtain ⟨tss, hbuilt, hgroups⟩ := (Derivation.moreWords [] .nil w ws).groups path
      obtain ⟨hspans, hne⟩ := Word.Built.spans hbuilt
      exact ⟨_, hspans, hgroups.holds hne hts⟩

end StatementTree

end GlyphFormat
