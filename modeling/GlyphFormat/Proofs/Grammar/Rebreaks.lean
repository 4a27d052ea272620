import GlyphFormat.Proofs.Grammar.Retelling

/-!
# Moving line breaks

Line breaks inside brackets may move, come and go without a change to the program, except in front
of an underscore: everywhere else the trees of words make room for them. What such a change is, is
left open here (`Rebreaks`), so that taking line breaks out and putting them in are both cases of
it.

The tokens after the change make up the same part of the grammar (`Rebreaks.retold`), and so the
words of the same program (`Rebreaks.keepsWords`).
-/

namespace GlyphFormat

open Cursor (depthAfter depthAfter_of_isPlain depthAfter_opening)

/-- A relation between tokens that moves nothing but line breaks inside brackets, and none to the
front of an underscore. The tally is that in front of the tokens. -/
structure Rebreaks (T : Int → List Token → List Token → Prop) : Prop where
  nil : ∀ {depth : Int} {us : List Token}, T depth [] us → us = []
  gap : ∀ {depth : Int} {g us : List Token}, Gap (decide (0 < depth)) g → T depth g us →
    Gap (decide (0 < depth)) us
  cons : ∀ {depth : Int} {t : Token} {ts us : List Token}, (t.lexeme = .newline → depth ≤ 0) →
    T depth (t :: ts) us → ∃ g u us', us = g ++ u :: us' ∧ Gap (decide (0 < depth)) g ∧
      (t.lexeme = .underscore → g = []) ∧ u.lexeme = t.lexeme ∧ T (depthAfter depth t) ts us'
  append : ∀ {depth depth' : Int} {ts ts' us : List Token}, Crosses depth ts depth' →
    T depth (ts ++ ts') us → ∃ vs vs', us = vs ++ vs' ∧ T depth ts vs ∧ T depth' ts' vs'

/-- What a part stands for, without spans. -/
def Part.strip : (part : Part) → part.Value → part.Value
  | .words, ws => Word.stripAll ws
  | .word, w => Word.strip w
  | .members, ws => Word.stripAll ws
  | .term _, w => Word.strip w
  | .bodies, bs => Word.stripBodies bs

/-- The tokens make up the same part, with room for line breaks around it: words take those behind
them as well, and all but further members leave those in front of them to what stands there. -/
def Part.Retold (path : Option Path) (inside : Bool) (us : List Token) :
    (part : Part) → part.Value → Prop
  | .words, v => ∀ g, Gap inside g → ∃ d : Derivation .words inside, d.tokens = us ++ g ∧
      Part.words.strip (d.value path) = Part.words.strip v
  | .word, v => ∃ g, Gap inside g ∧ ∃ d : Derivation .word inside, us = g ++ d.tokens ∧
      Part.word.strip (d.value path) = Part.word.strip v
  | .members, v => ∃ d : Derivation .members inside, us = d.tokens ∧
      Part.members.strip (d.value path) = Part.members.strip v
  | .term leads, v => ∃ g, Gap inside g ∧ ∃ d : Derivation (.term leads) inside,
      us = g ++ d.tokens ∧ (Part.term leads).strip (d.value path) = (Part.term leads).strip v
  | .bodies, v => ∀ g, Gap inside g → ∃ g', Gap inside g' ∧ ∃ d : Derivation .bodies inside,
      us ++ g = g' ++ d.tokens ∧ Part.bodies.strip (d.value path) = Part.bodies.strip v

theorem Lexeme.isPlain_of_isAtom {l : Lexeme} (h : l.isAtom = true) : l.isPlain = true := by
  cases l <;> first | rfl | cases h

theorem Token.strip_leaf (path : Option Path) {t u : Token} (h : u.lexeme = t.lexeme) :
    (u.leaf path).strip = (t.leaf path).strip := by
  unfold leaf atom?
  rw [h]
  cases t.lexeme <;> rfl

namespace Derivation

theorem strip_joined {w w' : Word} {ws ws' : List Word} (hw : w'.strip = w.strip)
    (hws : Word.stripAll ws' = Word.stripAll ws) (span span' : Span) :
    (joined w' ws' span').strip = (joined w ws span).strip := by
  cases ws with
  | nil =>
      cases ws' with
      | nil => exact hw
      | cons v' vs' => cases hws
  | cons v vs =>
      cases ws' with
      | nil => cases hws
      | cons v' vs' =>
          simp only [joined, Word.strip, Word.stripAll, hw]
          exact congrArg (fun us => Word.strand (w.strip :: us) none) hws

theorem strip_alternatives {b b' : List Word} {bs bs' : List (List Word)}
    (hb : Word.stripAll b' = Word.stripAll b) (hbs : Word.stripBodies bs' = Word.stripBodies bs)
    (span span' : Span) :
    (alternatives b' bs' span').strip = (alternatives b bs span).strip := by
  cases bs with
  | nil =>
      cases bs' with
      | nil => simp only [alternatives, Word.strip, hb]
      | cons c' cs' => cases hbs
  | cons c cs =>
      cases bs' with
      | nil => cases hbs
      | cons c' cs' =>
          simp only [alternatives, Word.strip, Word.stripBodies, hb]
          exact congrArg (fun cs => Word.funcArray (Word.stripAll b :: cs) none) hbs

end Derivation

namespace Rebreaks

variable {T : Int → List Token → List Token → Prop} {part : Part} {inside : Bool} {depth : Int}
  {us : List Token}

theorem cons_plain (hT : Rebreaks T) {t : Token} {ts : List Token}
    (ht : t.lexeme.isPlain = true) (h : T depth (t :: ts) us) :
    ∃ g u us', us = g ++ u :: us' ∧ Gap (decide (0 < depth)) g ∧
      (t.lexeme = .underscore → g = []) ∧ u.lexeme = t.lexeme ∧ T depth ts us' := by
  have hnewline : t.lexeme = .newline → depth ≤ 0 := fun hl => by
    rw [hl] at ht
    cases ht
  have hcons := hT.cons hnewline h
  rwa [depthAfter_of_isPlain depth ht] at hcons

theorem cons_opening (hT : Rebreaks T) {o : Token} {ts : List Token}
    (ho : o.lexeme = .openSquare ∨ o.lexeme = .openRound) (h : T depth (o :: ts) us) :
    ∃ g u us', us = g ++ u :: us' ∧ Gap (decide (0 < depth)) g ∧ u.lexeme = o.lexeme ∧
      T (depth + 1) ts us' := by
  have hnewline : o.lexeme = .newline → depth ≤ 0 := fun hl => by
    rcases ho with ho | ho <;> cases hl.symm.trans ho
  obtain ⟨g, u, us', rfl, hg, -, hu, htail⟩ := hT.cons hnewline h
  rw [depthAfter_opening depth ho] at htail
  exact ⟨g, u, us', rfl, hg, hu, htail⟩

theorem closing (hT : Rebreaks T) {t : Token}
    (ht : t.lexeme = .closeSquare ∨ t.lexeme = .closeRound) (hdepth : 0 ≤ depth)
    (h : T (depth + 1) [t] us) : ∃ g u, us = g ++ [u] ∧ Gap true g ∧ u.lexeme = t.lexeme := by
  have hnewline : t.lexeme = .newline → depth + 1 ≤ 0 := fun hl => by
    rcases ht with ht | ht <;> cases hl.symm.trans ht
  obtain ⟨g, u, us', rfl, hg, -, hu, h⟩ := hT.cons hnewline h
  obtain rfl := hT.nil h
  rw [show decide (0 < depth + 1) = true from decide_eq_true (by omega)] at hg
  exact ⟨g, u, rfl, hg, hu⟩

/-! ### Trees by one rule -/

/-- However the tokens of the tree are told anew, they make up the same part. -/
def Keeps (T : Int → List Token → List Token → Prop) (path : Option Path)
    (d : Derivation part inside) : Prop :=
  ∀ {depth : Int} {us : List Token}, 0 ≤ depth → inside = decide (0 < depth) →
    T depth d.tokens us → part.Retold path inside us (d.value path)

/-- A tree closes the brackets that it opens. -/
theorem crosses_tokens (d : Derivation part inside) (hdepth : 0 ≤ depth)
    (hin : inside = decide (0 < depth)) : Crosses depth d.tokens depth :=
  (d.derives none).crosses hdepth fun h => of_decide_eq_true (hin ▸ h)

/-- One bracket further in, line breaks do not count. -/
theorem inside_succ (h : 0 ≤ depth) : 0 ≤ depth + 1 ∧ true = decide (0 < depth + 1) :=
  ⟨by omega, (decide_eq_true (by omega)).symm⟩

variable {path : Option Path}

theorem keeps_noWords (hT : Rebreaks T) {g : List Token} (hg : Gap inside g) :
    Keeps T path (.noWords g hg) := by
  rintro depth us hdepth rfl h g' hg'
  exact ⟨.noWords (us ++ g') ((hT.gap hg h).append hg'), rfl, rfl⟩

/-- Line breaks in front of the word go to the gap, and those behind the words to the last one. -/
theorem keeps_moreWords (hT : Rebreaks T) {g : List Token} (hg : Gap inside g)
    {w : Derivation .word inside} {ws : Derivation .words inside} (ihw : Keeps T path w)
    (ihws : Keeps T path ws) : Keeps T path (.moreWords g hg w ws) := by
  rintro depth us hdepth rfl h g' hg'
  obtain ⟨ug, us₁, rfl, hug, h₁⟩ := hT.append (.gap hg fun h => of_decide_eq_true h) h
  obtain ⟨uw, us₂, rfl, huw, h₂⟩ := hT.append (crosses_tokens w hdepth rfl) h₁
  obtain ⟨gw, hgw, w', rfl, hw⟩ := ihw hdepth rfl huw
  obtain ⟨ws', hws', hws⟩ := ihws hdepth rfl h₂ g' hg'
  refine ⟨.moreWords (ug ++ gw) ((hT.gap hg hug).append hgw) w' ws', ?_, ?_⟩
  · simp only [Derivation.tokens, hws', List.append_assoc]
  · exact List.cons_eq_cons.mpr ⟨hw, hws⟩

theorem keeps_modified (hT : Rebreaks T) {t : Token} (ht : t.lexeme.isModifier = true)
    {g : List Token} (hg : Gap inside g) {w : Derivation .word inside} (ih : Keeps T path w) :
    Keeps T path (.modified t ht g hg w) := by
  rintro depth us hdepth rfl h
  have hplain := Lexeme.isPlain_of_isAtom (Lexeme.isAtom_of_isModifier ht)
  obtain ⟨gt, u, us₁, rfl, hgt, -, hu, h₁⟩ := hT.cons_plain hplain h
  obtain ⟨ug, us₂, rfl, hug, h₂⟩ := hT.append (.gap hg fun h => of_decide_eq_true h) h₁
  obtain ⟨gw, hgw, w', rfl, hw⟩ := ih hdepth rfl h₂
  refine ⟨gt, hgt, .modified u (by rw [hu, ht]) (ug ++ gw) ((hT.gap hg hug).append hgw) w',
    by simp only [Derivation.tokens, List.append_assoc], ?_⟩
  show Word.modified (u.leaf path).strip (Word.strip _) none = .modified _ (Word.strip _) none
  rw [Token.strip_leaf path hu]
  exact congrArg (Word.modified _ · none) hw

theorem keeps_strand (hT : Rebreaks T) {w : Derivation (.term true) inside}
    {ws : Derivation .members inside} (ihw : Keeps T path w) (ihws : Keeps T path ws) :
    Keeps T path (.strand w ws) := by
  rintro depth us hdepth rfl h
  obtain ⟨uw, us₁, rfl, huw, h₁⟩ := hT.append (crosses_tokens w hdepth rfl) h
  obtain ⟨gw, hgw, w', rfl, hw⟩ := ihw hdepth rfl huw
  obtain ⟨ws', rfl, hws⟩ := ihws hdepth rfl h₁
  refine ⟨gw, hgw, .strand w' ws', by rw [Derivation.tokens, List.append_assoc], ?_⟩
  exact Derivation.strip_joined hw hws _ _

theorem keeps_noMembers (hT : Rebreaks T) :
    Keeps T path (.noMembers : Derivation .members inside) := by
  rintro depth us hdepth rfl h
  exact ⟨.noMembers, hT.nil h, rfl⟩

/-- No line break comes in front of the underscore. -/
theorem keeps_moreMembers (hT : Rebreaks T) {t : Token} (ht : t.lexeme = .underscore)
    {g : List Token} (hg : Gap inside g) {w : Derivation (.term false) inside}
    {ws : Derivation .members inside} (ihw : Keeps T path w) (ihws : Keeps T path ws) :
    Keeps T path (.moreMembers t ht g hg w ws) := by
  rintro depth us hdepth rfl h
  obtain ⟨gt, u, us₁, rfl, -, hgt, hu, h₁⟩ := hT.cons_plain (by rw [ht]; rfl) h
  obtain rfl := hgt ht
  obtain ⟨ug, us₂, rfl, hug, h₂⟩ := hT.append (.gap hg fun h => of_decide_eq_true h) h₁
  obtain ⟨uw, us₃, rfl, huw, h₃⟩ := hT.append (crosses_tokens w hdepth rfl) h₂
  obtain ⟨gw, hgw, w', rfl, hw⟩ := ihw hdepth rfl huw
  obtain ⟨ws', rfl, hws⟩ := ihws hdepth rfl h₃
  refine ⟨.moreMembers u (hu.trans ht) (ug ++ gw) ((hT.gap hg hug).append hgw) w' ws', ?_, ?_⟩
  · simp only [Derivation.tokens, List.append_assoc, List.nil_append]
  · exact List.cons_eq_cons.mpr ⟨hw, hws⟩

theorem keeps_atom (hT : Rebreaks T) {leads : Bool} {t : Token} (ht : t.lexeme.isAtom = true)
    (hm : leads = true → t.lexeme.isModifier = false) :
    Keeps T path (.atom t ht hm : Derivation (.term leads) inside) := by
  rintro depth us hdepth rfl h
  obtain ⟨gt, u, us₁, rfl, hgt, -, hu, h₁⟩ := hT.cons_plain (Lexeme.isPlain_of_isAtom ht) h
  obtain rfl := hT.nil h₁
  refine ⟨gt, hgt, .atom u (by rw [hu, ht]) (by rw [hu]; exact hm), rfl, ?_⟩
  exact Token.strip_leaf path hu

/-- Line breaks in front of the closing bracket go to the words before it. -/
theorem keeps_array (hT : Rebreaks T) {leads : Bool} {o t : Token} (ho : o.lexeme = .openSquare)
    {ws : Derivation .words true} (ih : Keeps T path ws) (ht : t.lexeme = .closeSquare) :
    Keeps T path (.array o ho ws t ht : Derivation (.term leads) inside) := by
  rintro depth us hdepth rfl h
  obtain ⟨hdepth', hin⟩ := inside_succ hdepth
  obtain ⟨go, o', us₁, rfl, hgo, ho', h₁⟩ := hT.cons_opening (Or.inl ho) h
  obtain ⟨uws, us₂, rfl, huws, h₂⟩ := hT.append (crosses_tokens ws hdepth' hin) h₁
  obtain ⟨gt, t', rfl, hgt, ht'⟩ := hT.closing (Or.inl ht) hdepth h₂
  obtain ⟨ws', hws', hws⟩ := ih hdepth' hin huws gt hgt
  refine ⟨go, hgo, .array o' (ho'.trans ho) ws' t' (ht'.trans ht), ?_, ?_⟩
  · simp only [Derivation.tokens, hws', List.append_assoc]
  · exact congrArg (Word.array · none) hws

/-- Those in front of a bar go to the body before it as well. -/
theorem keeps_func (hT : Rebreaks T) {leads : Bool} {o t : Token} (ho : o.lexeme = .openRound)
    {b : Derivation .words true} {bs : Derivation .bodies true} (ihb : Keeps T path b)
    (ihbs : Keeps T path bs) (ht : t.lexeme = .closeRound) :
    Keeps T path (.func o ho b bs t ht : Derivation (.term leads) inside) := by
  rintro depth us hdepth rfl h
  obtain ⟨hdepth', hin⟩ := inside_succ hdepth
  obtain ⟨go, o', us₁, rfl, hgo, ho', h₁⟩ := hT.cons_opening (Or.inr ho) h
  obtain ⟨ub, us₂, rfl, hub, h₂⟩ := hT.append (crosses_tokens b hdepth' hin) h₁
  obtain ⟨ubs, us₃, rfl, hubs, h₃⟩ := hT.append (crosses_tokens bs hdepth' hin) h₂
  obtain ⟨gt, t', rfl, hgt, ht'⟩ := hT.closing (Or.inr ht) hdepth h₃
  obtain ⟨gb, hgb, bs', hbs', hbs⟩ := ihbs hdepth' hin hubs gt hgt
  obtain ⟨b', hb', hb⟩ := ihb hdepth' hin hub gb hgb
  refine ⟨go, hgo, .func o' (ho'.trans ho) b' bs' t' (ht'.trans ht), ?_, ?_⟩
  · rw [Derivation.tokens, hb', List.append_assoc ub, ← List.append_assoc gb, ← hbs']
    simp only [List.append_assoc]
  · exact Derivation.strip_alternatives hb hbs _ _

theorem keeps_noBodies (hT : Rebreaks T) :
    Keeps T path (.noBodies : Derivation .bodies inside) := by
  rintro depth us hdepth rfl h g hg
  obtain rfl := hT.nil h
  exact ⟨g, hg, .noBodies, (List.append_nil g).symm, rfl⟩

theorem keeps_moreBodies (hT : Rebreaks T) {t : Token} (ht : t.lexeme = .pipe)
    {b : Derivation .words inside} {bs : Derivation .bodies inside} (ihb : Keeps T path b)
    (ihbs : Keeps T path bs) : Keeps T path (.moreBodies t ht b bs) := by
  rintro depth us hdepth rfl h g hg
  obtain ⟨gt, u, us₁, rfl, hgt, -, hu, h₁⟩ := hT.cons_plain (by rw [ht]; rfl) h
  obtain ⟨ub, us₂, rfl, hub, h₂⟩ := hT.append (crosses_tokens b hdepth rfl) h₁
  obtain ⟨gb, hgb, bs', hbs', hbs⟩ := ihbs hdepth rfl h₂ g hg
  obtain ⟨b', hb', hb⟩ := ihb hdepth rfl hub gb hgb
  refine ⟨gt, hgt, .moreBodies u (hu.trans ht) b' bs', ?_, List.cons_eq_cons.mpr ⟨hb, hbs⟩⟩
  rw [Derivation.tokens, hb', List.append_assoc ub, ← hbs']
  simp only [List.append_assoc, List.cons_append]

/-- What is told anew is the same part. By induction on the tree. -/
theorem retold (hT : Rebreaks T) (path : Option Path) (d : Derivation part inside) :
    Keeps T path d := by
  induction d with
  | noWords _ hg => exact hT.keeps_noWords hg
  | moreWords _ hg _ _ ihw ihws => exact hT.keeps_moreWords hg ihw ihws
  | modified _ ht _ hg _ ih => exact hT.keeps_modified ht hg ih
  | strand _ _ ihw ihws => exact hT.keeps_strand ihw ihws
  | noMembers => exact hT.keeps_noMembers
  | moreMembers _ ht _ hg _ _ ihw ihws => exact hT.keeps_moreMembers ht hg ihw ihws
  | atom _ ht hm => exact hT.keeps_atom ht hm
  | array _ ho _ _ ht ih => exact hT.keeps_array ho ih ht
  | func _ ho _ _ _ ht ihb ihbs => exact hT.keeps_func ho ihb ihbs ht
  | noBodies => exact hT.keeps_noBodies
  | moreBodies _ ht _ _ ihb ihbs => exact hT.keeps_moreBodies ht ihb ihbs

/-- Outside brackets nothing moves, so words are words. -/
theorem keepsWords (hT : Rebreaks T) (path : Option Path) : KeepsWords path (T 0) where
  nil := hT.nil
  cons := fun {t ts us} ht h => by
    have hdepth : depthAfter 0 t = 0 := by rw [Cursor.depthAfter_eq, ht]; rfl
    obtain ⟨g, u, us', rfl, hg, -, hu, htail⟩ := hT.cons (fun _ => Int.le_refl 0) h
    obtain rfl := hg.2 rfl
    exact ⟨u, us', rfl, hu, hdepth ▸ htail⟩
  append := hT.append
  word := fun d us h => by
    obtain ⟨g, hg, d', rfl, hd⟩ := hT.retold path d (Int.le_refl 0) rfl h
    obtain rfl := hg.2 rfl
    exact ⟨d', rfl, hd⟩
  words := fun d us h => by
    obtain ⟨d', hd', hd⟩ := hT.retold path d (Int.le_refl 0) rfl h [] .nil
    exact ⟨d', by rw [hd', List.append_nil], hd⟩

end Rebreaks

end GlyphFormat
