import GlyphFormat.Proofs.Writing.Marks

/-!
# Runs of writing

Writing meets no fault where all words are there and every slot of a selector has a character
(`runs_marks`). What it does to the layout depends on the scope only through what the names stand
for (`Mark.settle`), and one settled mark makes room and puts one lexeme's text down, or notes the
end of a strand (`Layout.put`).
-/

namespace GlyphFormat

namespace Selector

/-- A slot that has a letter. -/
def HasLetter (slot : Int) : Prop := 0 ≤ slot ∧ slot ≤ 25

theorem character?_of_hasLetter {slot : Int} (h : HasLetter slot) :
    ∃ c, character? slot = some c ∧ c.isSmallLetter = true ∧ (c.val : Int) - 0x61 = slot := by
  obtain ⟨h₀, h₂₅⟩ := h
  have hlt : (slot + 0x61).toNat < 0x110000 := by omega
  refine ⟨⟨(slot + 0x61).toNat, hlt⟩, ?_, CodePoint.isSmallLetter_iff.mpr ?_, ?_⟩
  · rw [character?, if_pos (by omega), CodePoint.ofNat?, dif_pos hlt]
  · show 0x61 ≤ (slot + 0x61).toNat ∧ (slot + 0x61).toNat ≤ 0x7A
    omega
  · show ((slot + 0x61).toNat : Int) - 0x61 = slot
    omega

/-- Slots that have letters are spelled by them. -/
theorem characters?_of_hasLetter {s : Selector} (h : ∀ slot ∈ s, HasLetter slot) :
    ∃ t, characters? s = some t ∧ (∀ c ∈ t, c.isSmallLetter = true) ∧ ofLetters t = s := by
  induction s with
  | nil => exact ⟨[], rfl, fun c hc => absurd hc List.not_mem_nil, rfl⟩
  | cons slot s ih =>
      obtain ⟨t, ht, hsmall, hslots⟩ := ih fun x hx => h x (List.mem_cons_of_mem _ hx)
      obtain ⟨c, hc, hcsmall, hval⟩ := character?_of_hasLetter (h slot List.mem_cons_self)
      refine ⟨c :: t, by simp [characters?, hc, ht], fun d hd => ?_, ?_⟩
      · rcases List.mem_cons.mp hd with rfl | hd
        · exact hcsmall
        · exact hsmall d hd
      · rw [← hslots, ← hval]
        rfl

end Selector

namespace Mark

/-- A mark that a source can spell. -/
def Lexable : Mark → Prop
  | .number x => x.IsLiteral
  | .char t => t.length = 1
  | .ident n => n.IsName
  | .selector s => s ≠ [] ∧ ∀ slot ∈ s, Selector.HasLetter slot
  | .punctuation l => ∃ c, Lexeme.ofPunctuation? c = some l
  | .missing => False
  | _ => True

/-- A mark that has a text. -/
def Writable : Mark → Prop
  | .selector s => (Selector.characters? s).isSome = true
  | .missing => False
  | _ => True

theorem Lexable.writable {m : Mark} (hm : m.Lexable) : m.Writable := by
  cases m with
  | selector s =>
      obtain ⟨t, ht, -, -⟩ := Selector.characters?_of_hasLetter hm.2
      show (Selector.characters? s).isSome = true
      rw [ht]
      rfl
  | missing => exact hm
  | _ => trivial

/-- What a name stands for: where it is not bound, a primitive of that name. -/
def ofName (bound : Bool) (n : Text) : Mark :=
  match if bound then none else Primitive.ofName? n with
  | some p => .prim p
  | none => .ident n

/-- What a mark stands for under a scope, which is asked about names only. -/
def settle {σ : Type} [Scope σ] (m : Mark) (scope : σ) : Mark × σ :=
  match m with
  | .ident n => (ofName (Scope.isBound n scope).1 n, (Scope.isBound n scope).2)
  | m => (m, scope)

/-- What the marks stand for, asked about one after the other. -/
def settleAll {σ : Type} [Scope σ] : List Mark → σ → List Mark × σ
  | [], scope => ([], scope)
  | m :: ms, scope =>
    let (n, scope) := m.settle scope
    let (ns, scope) := settleAll ms scope
    (n :: ns, scope)

/-- The lexeme of a settled mark. A primitive without a glyph is spelled by its name. -/
def lexeme? : Mark → Option Lexeme
  | .number x => some (.number x)
  | .char t => some (.char t)
  | .string t => some (.string t)
  | .ident n => some (.ident n)
  | .selector s => (Selector.characters? s).map .selector
  | .prim p => some (if p.glyph?.isSome then .primitive p else .ident p.name)
  | .punctuation l => some l
  | .strandEnd | .missing => none

/-- The room that is made in front of a settled mark. -/
def makeRoom (m : Mark) (l : Layout) : Layout :=
  match m with
  | .number _ | .char _ | .string _ => l.spaceAfterAlphanumeric
  | .ident _ | .selector _ => l.spaceAfterLetter
  | .prim p => if p.startsWithLetter then l.spaceAfterAlphanumeric else l
  | _ => l

end Mark

/-- Puts a settled mark down. -/
def Layout.put (l : Layout) (m : Mark) : Layout :=
  match m.lexeme? with
  | some lexeme => (m.makeRoom l).push lexeme.text
  | none => { l with afterStrand := true }

namespace Writing

variable {σ : Type}

/-- Writing meets no fault and turns the first sheet into the second. -/
def Runs (w : Writing σ Unit) (s t : Sheet σ) : Prop := w.run s = (.ok (), t)

theorem Runs.bind {v w : Writing σ Unit} {s t u : Sheet σ} (hv : v.Runs s t) (hw : w.Runs t u) :
    Runs (do v; w) s u := by
  unfold Runs at *
  rw [ExceptT.run_bind]
  show StateT.bind _ _ s = _
  unfold StateT.bind
  rw [show v.run s = _ from hv]
  exact hw

theorem runs_onLayout (f : Layout → Layout) (l : Layout) (scope : σ) :
    Runs (onLayout f) ⟨l, scope⟩ ⟨f l, scope⟩ := rfl

theorem runs_push (t : Text) (l : Layout) (scope : σ) :
    Runs (push t) ⟨l, scope⟩ ⟨l.push t, scope⟩ := rfl

theorem text_primitive (p : Primitive) :
    (if p.glyph?.isSome then Lexeme.primitive p else .ident p.name).text = p.display := by
  cases hg : p.glyph? with
  | some g => rfl
  | none => simp [Lexeme.text, Lexeme.valueText, Primitive.display, hg]

theorem runs_primitive (p : Primitive) (l : Layout) (scope : σ) :
    Runs (primitive p) ⟨l, scope⟩ ⟨l.put (.prim p), scope⟩ := by
  have hput : l.put (.prim p) = (Mark.makeRoom (.prim p) l).push p.display := by
    rw [← text_primitive]
    rfl
  rw [hput, primitive, Mark.makeRoom]
  by_cases hp : p.startsWithLetter = true
  · rw [if_pos hp, if_pos hp]
    exact (runs_onLayout _ l scope).bind (runs_push _ _ _)
  · rw [if_neg hp, if_neg hp]
    exact runs_push _ _ _

variable [Scope σ]

theorem run_primitiveOf? (n : Text) (l : Layout) (scope : σ) :
    (primitiveOf? n).run ⟨l, scope⟩ =
      (.ok (if (Scope.isBound n scope).1 then none else Primitive.ofName? n),
        ⟨l, (Scope.isBound n scope).2⟩) := by
  obtain ⟨b, t, hb⟩ : ∃ b t, Scope.isBound n scope = (b, t) := ⟨_, _, rfl⟩
  have hask : (isBound n).run (⟨l, scope⟩ : Sheet σ) = (.ok b, ⟨l, t⟩) := by
    show (Except.ok (Scope.isBound n scope).1, (⟨l, (Scope.isBound n scope).2⟩ : Sheet σ)) = _
    rw [hb]
  rw [hb, primitiveOf?, ExceptT.run_bind]
  show StateT.bind _ _ _ = _
  unfold StateT.bind
  rw [hask]
  cases b <;> rfl

theorem runs_ident (n : Text) (l : Layout) (scope : σ) :
    Runs (mark (.ident n)) ⟨l, scope⟩
      ⟨l.put ((Mark.ident n).settle scope).1, ((Mark.ident n).settle scope).2⟩ := by
  unfold Runs
  rw [mark, ExceptT.run_bind]
  show StateT.bind _ _ _ = _
  unfold StateT.bind
  rw [run_primitiveOf?, Mark.settle, Mark.ofName]
  cases if (Scope.isBound n scope).1 = true then none else Primitive.ofName? n with
  | some p => exact runs_primitive p l _
  | none => rfl

theorem runs_mark {m : Mark} (hm : m.Writable) (l : Layout) (scope : σ) :
    Runs (mark m) ⟨l, scope⟩ ⟨l.put (m.settle scope).1, (m.settle scope).2⟩ := by
  cases m with
  | number x => rfl
  | char t => rfl
  | string t => rfl
  | ident n => exact runs_ident n l scope
  | selector s =>
      obtain ⟨t, ht⟩ := Option.isSome_iff_exists.mp hm
      have htext : s.toText? = some (CodePoint.ofChar ':' :: t) := by
        rw [Selector.toText?, ht]
        rfl
      have hput : l.put (.selector s) = l.spaceAfterLetter.push (CodePoint.ofChar ':' :: t) := by
        rw [Layout.put, Mark.lexeme?, ht]
        rfl
      show Runs (mark (.selector s)) ⟨l, scope⟩ ⟨l.put (.selector s), scope⟩
      rw [mark, htext, hput]
      exact (runs_onLayout _ l scope).bind (runs_push _ _ _)
  | prim p => exact runs_primitive p l scope
  | punctuation p => rfl
  | strandEnd => rfl
  | missing => exact absurd hm id

/-- Writing marks that have texts meets no fault. -/
theorem runs_marks {ms : List Mark} (hms : ∀ m ∈ ms, m.Writable) (l : Layout) (scope : σ) :
    Runs (marks ms) ⟨l, scope⟩
      ⟨(Mark.settleAll ms scope).1.foldl Layout.put l, (Mark.settleAll ms scope).2⟩ := by
  induction ms generalizing l scope with
  | nil => rfl
  | cons m ms ih =>
      have hm := runs_mark (hms m List.mem_cons_self) l scope
      exact hm.bind (ih (fun n hn => hms n (List.mem_cons_of_mem _ hn)) _ _)

end Writing

/-! ## Words that can be written and lexed -/

/-- A leaf that has a text. Words with parts are judged by their parts. -/
def Word.LeafWritable : Word → Prop
  | .selector s _ => (Selector.characters? s).isSome = true
  | .missing => False
  | _ => True

instance : DecidablePred Word.LeafWritable := fun w => by
  cases w <;> unfold Word.LeafWritable <;> infer_instance

theorem Word.LeafWritable.leaf {v : Word} (hv : v.LeafWritable) {m : Mark}
    (hm : v.leaf? = some m) : m.Writable := by
  cases v with
  | strand _ _ | array _ _ | func _ _ | funcArray _ _ | modified _ _ _ => cases hm
  | _ =>
      obtain rfl := Option.some.inj hm
      exact hv

/-- An item of any shape that has a text: no word of it is missing, and every slot of a selector has
a character. -/
def Item.Writable (i : Item) : Prop := ∀ v ∈ i.allWords, v.LeafWritable

instance (i : Item) : Decidable i.Writable := inferInstanceAs (Decidable (∀ v ∈ i.allWords, _))

/-- A leaf that a source can spell. Words with parts are judged by their parts. -/
def Word.LeafLexable : Word → Prop
  | .number x _ => x.IsLiteral
  | .char t _ => t.length = 1
  | .ident n _ => n.IsName
  | .selector s _ => s ≠ [] ∧ ∀ slot ∈ s, Selector.HasLetter slot
  | .missing => False
  | _ => True

theorem Word.LeafLexable.writable {v : Word} (hv : v.LeafLexable) : v.LeafWritable := by
  cases v with
  | selector s _ => exact Mark.Lexable.writable (m := .selector s) hv
  | missing => exact hv
  | _ => trivial

/-- A word of any shape whose leaves a source can spell. -/
def Word.Lexable (w : Word) : Prop := ∀ v ∈ w.preorder, v.LeafLexable

end GlyphFormat
