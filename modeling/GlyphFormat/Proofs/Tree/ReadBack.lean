import GlyphFormat.Proofs.Token.Canonical
import GlyphFormat.Proofs.Tree.Outlines

/-!
# Outlines are read back

An outline without spans (`Outline.strip`) still holds the whole tree: the word, item or program
that it came from is read back from its labels, the kinds of its leaves and their texts
(`toWord?_strip`, `toItem?_strip`). So trees with the same outline are alike, and this needs no tree
that a source can spell, only numbers that a literal can stand for.
-/

namespace GlyphFormat

namespace Outline

/-! ## Outlines without spans -/

mutual

def strip : Outline → Outline
  | .node label os => .node label (stripAll os)
  | .leaf kind t _ => .leaf kind t none

def stripAll : List Outline → List Outline
  | [] => []
  | o :: os => o.strip :: stripAll os

end

mutual

/-- The spans of a word only show in the spans of its outline. -/
theorem ofWord_strip : (w : Word) → ofWord w.strip = (ofWord w).map strip
  | .number _ _ | .char _ _ | .string _ _ | .ident _ _ | .prim _ _ | .missing => rfl
  | .selector s _ => by
      simp only [Word.strip, ofWord]
      cases s.toText? <;> rfl
  | .strand ws _ | .array ws _ | .func ws _ => by
      simp only [Word.strip, ofWord, ofWords_strip ws]
      cases ofWords ws <;> rfl
  | .funcArray bs _ => by
      simp only [Word.strip, ofWord, ofBodies_strip bs]
      cases ofBodies bs <;> rfl
  | .modified m w _ => by
      simp only [Word.strip, ofWord, ofWord_strip m, ofWord_strip w]
      cases ofWord m <;> cases ofWord w <;> rfl

theorem ofWords_strip : (ws : List Word) → ofWords (Word.stripAll ws) = (ofWords ws).map stripAll
  | [] => rfl
  | w :: ws => by
      simp only [Word.stripAll, ofWords, ofWord_strip w, ofWords_strip ws]
      cases ofWord w <;> cases ofWords ws <;> rfl

theorem ofBodies_strip : (bs : List (List Word)) →
    ofBodies (Word.stripBodies bs) = (ofBodies bs).map stripAll
  | [] => rfl
  | b :: bs => by
      simp only [Word.stripBodies, ofBodies, ofWords_strip b, ofBodies_strip bs]
      cases ofWords b <;> cases ofBodies bs <;> rfl

end

theorem ofItem_strip (i : Item) : ofItem i.strip = (ofItem i).map strip := by
  cases i with
  | words ws _ | binding _ ws _ _ =>
      simp only [Item.strip, ofItem, ofWords_strip ws]
      cases ofWords ws <;> rfl
  | comment _ _ | newlines _ | missing => rfl

theorem ofItems_strip (is : List Item) :
    ofItems (is.map Item.strip) = (ofItems is).map stripAll := by
  induction is with
  | nil => rfl
  | cons i is ih =>
      simp only [List.map_cons, ofItems, ofItem_strip i, ih]
      cases ofItem i <;> cases ofItems is <;> rfl

/-! ## Reading back -/

/-- The word that a leaf shows. -/
def wordOfLeaf? (kind : Lexeme.Kind) (t : Text) : Option Word :=
  match kind with
  | .number => match (Lexeme.scan t).result with
    | .ok (.number x) => some (.number x none)
    | _ => none
  | .char => match (scanQuoted (some '\'') [] t.tail).result with
    | .ok content => some (.char content none)
    | .error _ => none
  | .string => match (scanQuoted (some '"') [] t.tail).result with
    | .ok content => some (.string content none)
    | .error _ => none
  | .ident => some (.ident t none)
  | .selector => some (.selector (.ofLetters t.tail) none)
  | .primitive => (Primitive.ofName? t).map (.prim · none)
  | _ => none

/-- The word that a label with words below it shows. -/
def wordOfNode? (label : String) (ws : List Word) : Option Word :=
  if label = "strand" then some (.strand ws none)
  else if label = "array" then some (.array ws none)
  else if label = "func" then some (.func ws none)
  else match ws with
    | [m, w] => if label = "modified" then some (.modified m w none) else none
    | _ => none

mutual

def toWord? : Outline → Option Word
  | .leaf kind t _ => wordOfLeaf? kind t
  | .node label os =>
    if label = "func_array" then (toBodies? os).map (.funcArray · none)
    else (toWords? os).bind (wordOfNode? label)

def toWords? : List Outline → Option (List Word)
  | [] => some []
  | o :: os => do return (← o.toWord?) :: (← toWords? os)

def toBodies? : List Outline → Option (List (List Word))
  | [] => some []
  | .node _ os :: bs => do return (← toWords? os) :: (← toBodies? bs)
  | .leaf _ _ _ :: _ => none

end

def toItem? : Outline → Option Item
  | .node label os =>
    if label = "words" then (toWords? os).map (.words · none)
    else if label = "newlines" then some (.newlines none)
    else match os with
      | [.leaf _ t _] => some (.comment t none)
      | [.leaf _ name _, .node _ os] => (toWords? os).map (.binding name · none none)
      | _ => none
  | .leaf _ _ _ => none

def toItems? : List Outline → Option (List Item)
  | [] => some []
  | o :: os => do return (← o.toItem?) :: (← toItems? os)

/-! ### Leaves -/

/-- The characters of a selector stand for its slots. -/
theorem ofLetters_of_characters? {s : Selector} {t : Text} (h : s.characters? = some t) :
    Selector.ofLetters t = s := by
  induction s generalizing t with
  | nil =>
      obtain rfl := Option.some.inj h
      rfl
  | cons slot s ih =>
      obtain ⟨c, hc, ht⟩ := Option.bind_eq_some_iff.mp h
      obtain ⟨cs, hcs, ht⟩ := Option.bind_eq_some_iff.mp ht
      obtain rfl := Option.some.inj ht
      have hslot : (c.val : Int) - 0x61 = slot := by
        unfold Selector.character? at hc
        split at hc
        · have hval := CodePoint.ofNat?_eq_some_iff.mp hc
          omega
        · cases hc
      rw [Selector.ofLetters, List.map_cons, hslot, ← Selector.ofLetters, ih hcs]

theorem wordOfLeaf?_number {x : Binary64} (hx : x.IsLiteral) :
    wordOfLeaf? .number x.format = some (.number x none) := by
  have hscan : Lexeme.scan (x.format ++ []) = .found x.format.length (.number x) :=
    Lexeme.scan_number hx nofun
  rw [List.append_nil] at hscan
  simp only [wordOfLeaf?, hscan, Scan.found]

theorem wordOfLeaf?_char (t : Text) :
    wordOfLeaf? .char (quoteChar t) = some (.char t none) := by
  have htail : (quoteChar t).tail = quoteText (some '\'') t ++ CodePoint.ofChar '\'' :: [] := rfl
  simp only [wordOfLeaf?, htail, scanQuoted_quoteText (.inr rfl : IsQuote '\'') t, Scan.found]

theorem wordOfLeaf?_string (t : Text) :
    wordOfLeaf? .string (quoteString t) = some (.string t none) := by
  have htail : (quoteString t).tail = quoteText (some '"') t ++ CodePoint.ofChar '"' :: [] := rfl
  simp only [wordOfLeaf?, htail, scanQuoted_quoteText (.inl rfl : IsQuote '"') t, Scan.found]

/-! ### Trees -/

/-- A literal can stand for every number among the words. -/
def AreLiterals (ws : List Word) : Prop := ∀ x span, .number x span ∈ ws → x.IsLiteral

theorem AreLiterals.mono {vs ws : List Word} (h : AreLiterals ws) (hsub : vs ⊆ ws) :
    AreLiterals vs :=
  fun x span hx => h x span (hsub hx)

mutual

/-- An outline without spans shows the word it came from. By recursion on the word. -/
theorem toWord?_strip : (w : Word) → AreLiterals w.preorder → {o : Outline} →
    ofWord w = .ok o → o.strip.toWord? = some w.strip
  | .number x span, hw, o, h => by
      obtain rfl := Except.ok.inj h
      exact wordOfLeaf?_number (hw x span List.mem_cons_self)
  | .char t _, _, o, h => by
      obtain rfl := Except.ok.inj h
      exact wordOfLeaf?_char t
  | .string t _, _, o, h => by
      obtain rfl := Except.ok.inj h
      exact wordOfLeaf?_string t
  | .ident name _, _, o, h => by
      obtain rfl := Except.ok.inj h
      rfl
  | .prim p _, _, o, h => by
      obtain rfl := Except.ok.inj h
      simp [strip, toWord?, wordOfLeaf?, Primitive.ofName?_name, Word.strip]
  | .selector s _, _, o, h => by
      rw [ofWord] at h
      cases ht : s.toText? with
      | none => rw [ht] at h; cases h
      | some t =>
          rw [ht] at h
          obtain rfl := Except.ok.inj h
          obtain ⟨cs, hcs, rfl⟩ := Option.map_eq_some_iff.mp ht
          simp [strip, toWord?, wordOfLeaf?, ofLetters_of_characters? hcs, Word.strip]
  | .missing, _, o, h => nomatch h
  | .strand ws _, hw, o, h | .array ws _, hw, o, h | .func ws _, hw, o, h => by
      rw [ofWord] at h
      obtain ⟨os, hos, rfl⟩ := bind_return_eq_ok_iff.mp h
      have hws := toWords?_stripAll ws (hw.mono (List.subset_cons_self _ _)) hos
      simp [strip, toWord?, hws, wordOfNode?, Word.strip]
  | .funcArray bs _, hw, o, h => by
      rw [ofWord] at h
      obtain ⟨os, hos, rfl⟩ := bind_return_eq_ok_iff.mp h
      have hbs := toBodies?_stripAll bs (hw.mono (List.subset_cons_self _ _)) hos
      simp [strip, toWord?, hbs, Word.strip]
  | .modified m w _, hw, o, h => by
      rw [ofWord] at h
      obtain ⟨p, q, hp, hq, rfl⟩ := bind_bind_return_eq_ok_iff.mp h
      have hparts := hw.mono (List.subset_cons_self _ _)
      have hmod := toWord?_strip m (hparts.mono (List.subset_append_left _ _)) hp
      have hoperand := toWord?_strip w (hparts.mono (List.subset_append_right _ _)) hq
      simp [strip, stripAll, toWord?, toWords?, hmod, hoperand, wordOfNode?, Word.strip]

theorem toWords?_stripAll : (ws : List Word) → AreLiterals (Word.preorderAll ws) →
    {os : List Outline} → ofWords ws = .ok os → toWords? (stripAll os) = some (Word.stripAll ws)
  | [], _, os, h => by
      obtain rfl := Except.ok.inj h
      rfl
  | w :: ws, hw, os, h => by
      rw [ofWords] at h
      obtain ⟨p, ps, hp, hps, rfl⟩ := bind_bind_return_eq_ok_iff.mp h
      have hword := toWord?_strip w (hw.mono (List.subset_append_left _ _)) hp
      have hwords := toWords?_stripAll ws (hw.mono (List.subset_append_right _ _)) hps
      simp [stripAll, toWords?, hword, hwords, Word.stripAll]

theorem toBodies?_stripAll : (bs : List (List Word)) → AreLiterals (Word.preorderBodies bs) →
    {os : List Outline} → ofBodies bs = .ok os →
      toBodies? (stripAll os) = some (Word.stripBodies bs)
  | [], _, os, h => by
      obtain rfl := Except.ok.inj h
      rfl
  | b :: bs, hw, os, h => by
      rw [ofBodies] at h
      obtain ⟨ps, qs, hps, hqs, rfl⟩ := bind_bind_return_eq_ok_iff.mp h
      have hwords := toWords?_stripAll b (hw.mono (List.subset_append_left _ _)) hps
      have hbodies := toBodies?_stripAll bs (hw.mono (List.subset_append_right _ _)) hqs
      simp [strip, stripAll, toBodies?, hwords, hbodies, Word.stripBodies]

end

theorem toItem?_strip {i : Item} (hi : AreLiterals i.allWords) {o : Outline}
    (h : ofItem i = .ok o) : o.strip.toItem? = some i.strip := by
  cases i with
  | words ws _ | binding _ ws _ _ =>
      rw [ofItem] at h
      obtain ⟨os, hos, rfl⟩ := bind_return_eq_ok_iff.mp h
      have hws := toWords?_stripAll ws hi hos
      simp [strip, stripAll, toItem?, hws, Item.strip]
  | comment _ _ | newlines _ =>
      obtain rfl := Except.ok.inj h
      simp [strip, stripAll, toItem?, Item.strip]
  | missing => cases h

/-- Outlines without spans show the items they came from. -/
theorem toItems?_stripAll {is : List Item} (his : AreLiterals (is.flatMap Item.allWords))
    {os : List Outline} (h : ofItems is = .ok os) :
    toItems? (stripAll os) = some (is.map Item.strip) := by
  induction is generalizing os with
  | nil =>
      obtain rfl := Except.ok.inj h
      rfl
  | cons i is ih =>
      rw [List.flatMap_cons] at his
      rw [ofItems] at h
      obtain ⟨p, ps, hp, hps, rfl⟩ := bind_bind_return_eq_ok_iff.mp h
      have hitem := toItem?_strip (his.mono (List.subset_append_left _ _)) hp
      have hitems := ih (his.mono (List.subset_append_right _ _)) hps
      simp [stripAll, toItems?, hitem, hitems]

/-- An outline loses nothing: programs in which every number can be a literal are alike if their
outlines are the same without spans, and they have outlines unless something in them has no node. -/
theorem strip_eq_iff_alike {is js : List Item} (his : AreLiterals (is.flatMap Item.allWords))
    (hjs : AreLiterals (js.flatMap Item.allWords)) :
    ((∃ o, ofProgram is = .ok o) ↔ ∀ i ∈ is, i.HasNodes) ∧
      ∀ o p, ofProgram is = .ok o → ofProgram js = .ok p →
        (o.strip = p.strip ↔ Item.allAlike is js = true) := by
  refine ⟨by rw [ofProgram, exists_bind_return_iff, exists_ofItems_iff], fun o p ho hp => ?_⟩
  obtain ⟨os, hos, rfl⟩ := bind_return_eq_ok_iff.mp ho
  obtain ⟨ps, hps, rfl⟩ := bind_return_eq_ok_iff.mp hp
  rw [Item.allAlike_iff]
  constructor
  · intro h
    have hsame : stripAll os = stripAll ps := (Outline.node.inj h).2
    have hback := toItems?_stripAll his hos
    rw [hsame, toItems?_stripAll hjs hps] at hback
    exact (Option.some.inj hback).symm
  · intro h
    have hsame := congrArg ofItems h
    rw [ofItems_strip, ofItems_strip, hos, hps] at hsame
    exact congrArg (Outline.node "start") (Except.ok.inj hsame)

/-- One body and no body, behind a slot that is no letter. -/
theorem exists_strip_ne : ∃ is js : List Item,
    is = [.words [.selector [-97] none, .number (.ofBits 0) none, .funcArray [[]] none] none] ∧
    js = [.words [.selector [-97] none, .number (.ofBits 0) none, .funcArray [] none] none] ∧
    AreLiterals (is.flatMap Item.allWords) ∧ AreLiterals (js.flatMap Item.allWords) ∧
    (∀ i ∈ is, i.HasNodes) ∧ (∃ o, ofProgram is = .ok o) ∧
    ∀ o p, ofProgram is = .ok o → ofProgram js = .ok p → o.strip ≠ p.strip := by
  refine ⟨_, _, rfl, rfl, ?_⟩
  have hzero : (Binary64.ofBits 0).IsLiteral := ⟨by decide, by decide⟩
  have hliterals : ∀ bodies : List (List Word), Word.preorderBodies bodies = [] →
      AreLiterals ([Item.words [.selector [-97] none, .number (.ofBits 0) none,
        .funcArray bodies none] none].flatMap Item.allWords) := by
    intro bodies hbodies x span hx
    have hnumber : x = .ofBits 0 ∧ span = none := by
      simpa [Item.allWords, Item.topWords, Word.preorderAll, Word.preorder, hbodies] using hx
    exact hnumber.1 ▸ hzero
  have his := hliterals [[]] rfl
  have hjs := hliterals [] rfl
  obtain ⟨hexists, hsame⟩ := strip_eq_iff_alike his hjs
  have hnodes : ∀ i ∈ [Item.words [.selector [-97] none, .number (.ofBits 0) none,
      .funcArray [[]] none] none], i.HasNodes := by
    simp [Item.HasNodes, Item.allWords, Item.topWords, Word.preorderAll, Word.preorder,
      Word.preorderBodies, Word.HasNode]
  refine ⟨his, hjs, hnodes, hexists.mpr hnodes, fun o p ho hp h => ?_⟩
  exact absurd ((hsame o p ho hp).mp h) (by decide)

end Outline

end GlyphFormat
