import GlyphFormat.Proofs.Grammar.Lines
import GlyphFormat.Proofs.Token.Moves

/-!
# Trees further down

Tokens that stand some lines further down make up the same phrases there: each span moves by as many
lines and nothing else changes (`Derives.down`, `DerivesLine.down`).
-/

namespace GlyphFormat

variable {n : Nat}

/-! ## Moving trees -/

mutual

/-- The word, that many lines further down. -/
def Word.down (n : Nat) : Word → Word
  | .number x s => .number x (s.map (Span.down n))
  | .char t s => .char t (s.map (Span.down n))
  | .string t s => .string t (s.map (Span.down n))
  | .ident name s => .ident name (s.map (Span.down n))
  | .selector slots s => .selector slots (s.map (Span.down n))
  | .prim p s => .prim p (s.map (Span.down n))
  | .strand ws s => .strand (Word.downAll n ws) (s.map (Span.down n))
  | .array ws s => .array (Word.downAll n ws) (s.map (Span.down n))
  | .func ws s => .func (Word.downAll n ws) (s.map (Span.down n))
  | .funcArray bs s => .funcArray (Word.downBodies n bs) (s.map (Span.down n))
  | .modified m w s => .modified (m.down n) (w.down n) (s.map (Span.down n))
  | .missing => .missing

def Word.downAll (n : Nat) : List Word → List Word
  | [] => []
  | w :: ws => w.down n :: Word.downAll n ws

def Word.downBodies (n : Nat) : List (List Word) → List (List Word)
  | [] => []
  | b :: bs => Word.downAll n b :: Word.downBodies n bs

end

/-- The item, that many lines further down. -/
def Item.down (n : Nat) : Item → Item
  | .words ws s => .words (Word.downAll n ws) (s.map (Span.down n))
  | .binding name ws s s' =>
    .binding name (Word.downAll n ws) (s.map (Span.down n)) (s'.map (Span.down n))
  | .comment t s => .comment t (s.map (Span.down n))
  | .newlines s => .newlines (s.map (Span.down n))
  | .missing => .missing

theorem Span.map_down_zero (s : Option Span) : s.map (Span.down 0) = s := by
  cases s <;> rfl

mutual

theorem Word.down_zero : (w : Word) → w.down 0 = w
  | .number .. | .char .. | .string .. | .ident .. | .selector .. | .prim .. => by
    rw [Word.down, Span.map_down_zero]
  | .strand ws _ | .array ws _ | .func ws _ => by
    rw [Word.down, Span.map_down_zero, Word.downAll_zero ws]
  | .funcArray bs _ => by rw [Word.down, Span.map_down_zero, Word.downBodies_zero bs]
  | .modified m w _ => by
    rw [Word.down, Span.map_down_zero, Word.down_zero m, Word.down_zero w]
  | .missing => by rw [Word.down]

theorem Word.downAll_zero : (ws : List Word) → Word.downAll 0 ws = ws
  | [] => by rw [Word.downAll]
  | w :: ws => by rw [Word.downAll, Word.down_zero w, Word.downAll_zero ws]

theorem Word.downBodies_zero : (bs : List (List Word)) → Word.downBodies 0 bs = bs
  | [] => by rw [Word.downBodies]
  | b :: bs => by rw [Word.downBodies, Word.downAll_zero b, Word.downBodies_zero bs]

end

theorem Item.down_zero (i : Item) : i.down 0 = i := by
  cases i <;> simp [Item.down, Span.map_down_zero, Word.downAll_zero]

def Phrase.down (n : Nat) : Phrase → Phrase
  | .words ws => .words (Word.downAll n ws)
  | .word w => .word (w.down n)
  | .members ws => .members (Word.downAll n ws)
  | .term w => .term (w.down n)
  | .bodies bs => .bodies (Word.downBodies n bs)

/-! ## Deriving from moved tokens -/

theorem Gap.down {inside : Bool} {g : List Token} (h : Gap inside g) :
    Gap inside (g.map (Token.down n)) :=
  ⟨List.forall_mem_map.mpr h.1, fun hin => by rw [h.2 hin]; rfl⟩

namespace Token

theorem atom?_down (path : Option Path) (t : Token) :
    (t.down n).atom? path = (t.atom? path).map (Word.down n) := by
  unfold atom?
  rw [lexeme_down, span_down]
  cases t.lexeme <;> rfl

theorem modifier?_down (path : Option Path) (t : Token) :
    (t.down n).modifier? path = (t.modifier? path).map (Word.down n) := by
  unfold modifier?
  rw [lexeme_down, span_down]
  cases t.lexeme <;> first | rfl | (dsimp only; split <;> rfl)

theorem spanOver_down (path : Option Path) (n : Nat) {ts : List Token} (hne : ts ≠ []) :
    Token.spanOver path (ts.map (Token.down n)) = (Token.spanOver path ts).down n := by
  cases ts with
  | nil => exact absurd rfl hne
  | cons t ts =>
      simp only [spanOver, List.map_cons, List.head?_cons, List.getLast?_cons, List.getLast?_map,
        Option.getD_some]
      cases ts.getLast? <;> rfl

end Token

open Token (atom?_down modifier?_down spanOver_down)

/-- Tokens further down make up the phrase further down. -/
theorem Derives.down {path : Option Path} {inside : Bool} {φ : Phrase} {ts : List Token}
    (h : Derives path inside φ ts) (n : Nat) :
    Derives path inside (φ.down n) (ts.map (Token.down n)) := by
  have hmodifier : ∀ {t : Token} {m : Word}, t.modifier? path = some m →
      (t.down n).modifier? path = some (m.down n) := fun hm => by
    rw [modifier?_down, hm]
    rfl
  have hplain : ∀ {t : Token}, t.modifier? path = none → (t.down n).modifier? path = none :=
    fun hm => by
      rw [modifier?_down, hm]
      rfl
  induction h with
  | wordsNil hg => exact .wordsNil hg.down
  | wordsCons hg _ _ ihw ihws =>
      rw [List.map_append, List.map_append]
      exact .wordsCons hg.down ihw ihws
  | @modified _ t g ts m w hm hg _ ih =>
      have hspan := spanOver_down path n (List.cons_ne_nil t (g ++ ts))
      have hder := Derives.modified (hmodifier hm) (hg.down (n := n)) ih
      rw [← List.map_append, ← List.map_cons, hspan] at hder
      exact hder
  | lone hm _ ih => exact .lone (hplain hm) ih
  | @strand _ t ts us w v vs hm _ _ ihw ihvs =>
      have hspan := spanOver_down path n (List.cons_ne_nil t (ts ++ us))
      have hder := Derives.strand (hplain hm) ihw ihvs
      rw [← List.map_cons, ← List.map_append, List.cons_append, hspan] at hder
      exact hder
  | membersNil => exact .membersNil
  | membersCons ht hg _ _ ihw ihws =>
      rw [List.map_cons, List.map_append, List.map_append]
      exact .membersCons ht hg.down ihw ihws
  | atom hatom => exact .atom (by rw [atom?_down, hatom]; rfl)
  | @array inside o t ts ws ho _ ht ih =>
      have hspan := spanOver_down path n (List.cons_ne_nil o (ts ++ [t]))
      have hder := @Derives.array path inside (o.down n) (t.down n) _ _ ho ih ht
      rw [← List.map_singleton, ← List.map_append, ← List.map_cons, hspan] at hder
      exact hder
  | @func inside o t ts b ho _ ht ih =>
      have hspan := spanOver_down path n (List.cons_ne_nil o (ts ++ [t]))
      have hder := @Derives.func path inside (o.down n) (t.down n) _ _ ho ih ht
      rw [← List.map_singleton, ← List.map_append, ← List.map_cons, hspan] at hder
      exact hder
  | @funcArray inside o t ts us b b' bs ho _ _ ht ihb ihbs =>
      have hspan := spanOver_down path n (List.cons_ne_nil o (ts ++ (us ++ [t])))
      have hder := @Derives.funcArray path inside (o.down n) (t.down n) _ _ _ _ _ ho ihb ihbs ht
      rw [← List.map_singleton, ← List.map_append, ← List.map_append, ← List.map_cons, hspan]
        at hder
      exact hder
  | bodiesNil => exact .bodiesNil
  | bodiesCons ht _ _ ihb ihbs =>
      rw [List.map_cons, List.map_append]
      exact .bodiesCons ht ihb ihbs

theorem DerivesStatement.down {path : Option Path} {item : Item} {ts : List Token}
    (h : DerivesStatement path item ts) (n : Nat) :
    DerivesStatement path (item.down n) (ts.map (Token.down n)) := by
  cases h with
  | @binding t e ts name ws ht he hws =>
      have hspan := spanOver_down path n (List.cons_ne_nil t (e :: ts))
      have hder := DerivesStatement.binding (t := t.down n) (e := e.down n) ht he (hws.down n)
      rw [← List.map_cons, ← List.map_cons, hspan] at hder
      exact hder
  | words hne hws =>
      have hder := DerivesStatement.words (fun h => hne (List.map_eq_nil_iff.mp h)) (hws.down n)
      rw [spanOver_down path n hne] at hder
      exact hder

/-- A line further down gives its items there. -/
theorem DerivesLine.down {path : Option Path} {items : List Item} {ts : List Token}
    (h : DerivesLine path items ts) (n : Nat) :
    DerivesLine path (items.map (Item.down n)) (ts.map (Token.down n)) := by
  cases h with
  | comment ht => exact .comment (t := Token.down n _) ht
  | statement hs => exact .statement (hs.down n)
  | commented hs ht =>
      rw [List.map_append]
      exact .commented (t := Token.down n _) (hs.down n) ht

end GlyphFormat
