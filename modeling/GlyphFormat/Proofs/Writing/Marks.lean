import GlyphFormat.Proofs.Token.Joining
import GlyphFormat.Writing

/-!
# The marks of a word

Writing a word puts down its leaves and its punctuation in document order: its marks. Nothing else
of the tree matters for the text (`Writing.word_eq_marks`), so what holds along every list of marks
holds for words of any shape. A mark whose name the scope settles is either a place where a strand
ends or spells one lexeme.
-/

namespace GlyphFormat

/-- One thing that writing a word puts down. -/
inductive Mark where
  | number (value : Binary64)
  | char (content : Text)
  | string (content : Text)
  | ident (name : Text)
  | selector (slots : Selector)
  | prim (p : Primitive)
  | punctuation (l : Lexeme)
  /-- A strand ends here; nothing is written. -/
  | strandEnd
  | missing

mutual

/-- The leaves and the punctuation of a word in document order. -/
def Word.marks : Word → List Mark
  | .number x _ => [.number x]
  | .char t _ => [.char t]
  | .string t _ => [.string t]
  | .ident n _ => [.ident n]
  | .selector s _ => [.selector s]
  | .prim p _ => [.prim p]
  | .strand [] _ => [.strandEnd]
  | .strand (w :: ws) _ => w.marks ++ (Word.marksOfMembers ws ++ [.strandEnd])
  | .array ws _ =>
      .punctuation .openSquare :: (Word.marksOfAll ws ++ [.punctuation .closeSquare])
  | .func ws _ => .punctuation .openRound :: (Word.marksOfAll ws ++ [.punctuation .closeRound])
  | .funcArray [] _ => [.punctuation .openRound, .punctuation .closeRound]
  | .funcArray (b :: bs) _ =>
      .punctuation .openRound ::
        (Word.marksOfAll b ++ (Word.marksOfBodies bs ++ [.punctuation .closeRound]))
  | .modified m w _ => m.marks ++ w.marks
  | .missing => [.missing]

def Word.marksOfAll : List Word → List Mark
  | [] => []
  | w :: ws => w.marks ++ Word.marksOfAll ws

/-- Members of a strand, each behind an underscore. -/
def Word.marksOfMembers : List Word → List Mark
  | [] => []
  | w :: ws => .punctuation .underscore :: (w.marks ++ Word.marksOfMembers ws)

/-- Bodies of a function, each behind a bar. -/
def Word.marksOfBodies : List (List Word) → List Mark
  | [] => []
  | b :: bs => .punctuation .pipe :: (Word.marksOfAll b ++ Word.marksOfBodies bs)

end

/-! ## Leaves and joints -/

/-- The mark of a word without parts. -/
def Word.leaf? : Word → Option Mark
  | .number x _ => some (.number x)
  | .char t _ => some (.char t)
  | .string t _ => some (.string t)
  | .ident n _ => some (.ident n)
  | .selector s _ => some (.selector s)
  | .prim p _ => some (.prim p)
  | .missing => some .missing
  | .strand _ _ | .array _ _ | .func _ _ | .funcArray _ _ | .modified _ _ _ => none

namespace Mark

/-- The marks that words with parts put around them. -/
def joints : List Mark :=
  [.strandEnd, .punctuation .underscore, .punctuation .openSquare, .punctuation .closeSquare,
    .punctuation .openRound, .punctuation .closeRound, .punctuation .pipe]

end Mark

namespace Word

variable {P : Mark → Prop}

mutual

/-- What holds of the leaves of a word and of all joints holds of the marks of the word. -/
theorem forall_marks (hjoints : ∀ m ∈ Mark.joints, P m) : (w : Word) →
    (∀ v ∈ w.preorder, ∀ m, v.leaf? = some m → P m) → ∀ m ∈ w.marks, P m
  | .number _ _, h | .char _ _, h | .string _ _, h | .ident _ _, h | .selector _ _, h
  | .prim _ _, h | .missing, h => List.forall_mem_singleton.mpr (h _ List.mem_cons_self _ rfl)
  | .strand [] _, _ => List.forall_mem_singleton.mpr (hjoints _ (by simp [Mark.joints]))
  | .strand (w :: ws) _, h => by
      obtain ⟨hw, hws⟩ := List.forall_mem_append.mp (List.forall_mem_cons.mp h).2
      refine List.forall_mem_append.mpr ⟨forall_marks hjoints w hw, ?_⟩
      refine List.forall_mem_append.mpr ⟨forall_marksOfMembers hjoints ws hws, ?_⟩
      exact List.forall_mem_singleton.mpr (hjoints _ (by simp [Mark.joints]))
  | .array ws _, h | .func ws _, h => by
      have hws := (List.forall_mem_cons.mp h).2
      refine List.forall_mem_cons.mpr ⟨hjoints _ (by simp [Mark.joints]), ?_⟩
      refine List.forall_mem_append.mpr ⟨forall_marksOfAll hjoints ws hws, ?_⟩
      exact List.forall_mem_singleton.mpr (hjoints _ (by simp [Mark.joints]))
  | .funcArray [] _, _ => by
      refine List.forall_mem_cons.mpr ⟨hjoints _ (by simp [Mark.joints]), ?_⟩
      exact List.forall_mem_singleton.mpr (hjoints _ (by simp [Mark.joints]))
  | .funcArray (b :: bs) _, h => by
      obtain ⟨hb, hbs⟩ := List.forall_mem_append.mp (List.forall_mem_cons.mp h).2
      refine List.forall_mem_cons.mpr ⟨hjoints _ (by simp [Mark.joints]), ?_⟩
      refine List.forall_mem_append.mpr ⟨forall_marksOfAll hjoints b hb, ?_⟩
      refine List.forall_mem_append.mpr ⟨forall_marksOfBodies hjoints bs hbs, ?_⟩
      exact List.forall_mem_singleton.mpr (hjoints _ (by simp [Mark.joints]))
  | .modified m w _, h => by
      obtain ⟨hm, hw⟩ := List.forall_mem_append.mp (List.forall_mem_cons.mp h).2
      exact List.forall_mem_append.mpr ⟨forall_marks hjoints m hm, forall_marks hjoints w hw⟩

theorem forall_marksOfAll (hjoints : ∀ m ∈ Mark.joints, P m) : (ws : List Word) →
    (∀ v ∈ preorderAll ws, ∀ m, v.leaf? = some m → P m) → ∀ m ∈ marksOfAll ws, P m
  | [], _ => fun _ hm => absurd hm List.not_mem_nil
  | w :: ws, h => by
      obtain ⟨hw, hws⟩ := List.forall_mem_append.mp h
      exact List.forall_mem_append.mpr ⟨forall_marks hjoints w hw, forall_marksOfAll hjoints ws hws⟩

theorem forall_marksOfMembers (hjoints : ∀ m ∈ Mark.joints, P m) : (ws : List Word) →
    (∀ v ∈ preorderAll ws, ∀ m, v.leaf? = some m → P m) → ∀ m ∈ marksOfMembers ws, P m
  | [], _ => fun _ hm => absurd hm List.not_mem_nil
  | w :: ws, h => by
      obtain ⟨hw, hws⟩ := List.forall_mem_append.mp h
      refine List.forall_mem_cons.mpr ⟨hjoints _ (by simp [Mark.joints]), ?_⟩
      exact List.forall_mem_append.mpr
        ⟨forall_marks hjoints w hw, forall_marksOfMembers hjoints ws hws⟩

theorem forall_marksOfBodies (hjoints : ∀ m ∈ Mark.joints, P m) : (bs : List (List Word)) →
    (∀ v ∈ preorderBodies bs, ∀ m, v.leaf? = some m → P m) → ∀ m ∈ marksOfBodies bs, P m
  | [], _ => fun _ hm => absurd hm List.not_mem_nil
  | b :: bs, h => by
      obtain ⟨hb, hbs⟩ := List.forall_mem_append.mp h
      refine List.forall_mem_cons.mpr ⟨hjoints _ (by simp [Mark.joints]), ?_⟩
      exact List.forall_mem_append.mpr
        ⟨forall_marksOfAll hjoints b hb, forall_marksOfBodies hjoints bs hbs⟩

end

end Word

/-! ## Writing marks -/

namespace Writing

variable {σ : Type} [Scope σ]

def mark : Mark → Writing σ Unit
  | .number x => literal x.format
  | .char t => literal (quoteChar t)
  | .string t => literal (quoteString t)
  | .ident name => do
    match ← primitiveOf? name with
    | some p => primitive p
    | none =>
      onLayout Layout.spaceAfterLetter
      push name
  | .selector s => do
    onLayout Layout.spaceAfterLetter
    match s.toText? with
    | some t => push t
    | none => throw .noCharacter
  | .prim p => primitive p
  | .punctuation l => push l.text
  | .strandEnd => endStrand
  | .missing => throw .noWord

def marks : List Mark → Writing σ Unit
  | [] => pure ()
  | m :: ms => do
    mark m
    marks ms

theorem marks_append (ms ns : List Mark) :
    marks (ms ++ ns) = (do marks ms; marks ns : Writing σ Unit) := by
  induction ms with
  | nil => exact (pure_bind _ _).symm
  | cons m ms ih => simp only [List.cons_append, marks, ih, bind_assoc]

theorem marks_singleton (m : Mark) : marks [m] = (mark m : Writing σ Unit) := by
  simp only [marks]
  exact bind_pure_unit

theorem marks_cons (m : Mark) (ms : List Mark) :
    marks (m :: ms) = (do mark m; marks ms : Writing σ Unit) := rfl

mutual

/-- Writing a word is writing its marks. -/
theorem word_eq_marks : (w : Word) → word w = (marks w.marks : Writing σ Unit)
  | .number _ _ | .char _ _ | .string _ _ | .ident _ _ | .selector _ _ | .prim _ _ | .missing
  | .strand [] _ => by
      rw [Word.marks, marks_singleton]
      rfl
  | .strand (w :: ws) _ => by
      simp only [word, Word.marks, marks_append, word_eq_marks w, members_eq_marks ws,
        marks_singleton, mark]
  | .array ws _ => by
      simp only [word, Word.marks, marks_cons, marks_append, words_eq_marks ws]
      rfl
  | .func ws _ => by
      simp only [word, Word.marks, marks_cons, marks_append, words_eq_marks ws]
      rfl
  | .funcArray [] _ => by
      simp only [word, Word.marks, marks_cons]
      rfl
  | .funcArray (b :: bs) _ => by
      simp only [word, Word.marks, marks_cons, marks_append, words_eq_marks b,
        alternatives_eq_marks bs]
      rfl
  | .modified m w _ => by
      simp only [word, Word.marks, marks_append, word_eq_marks m, word_eq_marks w]

theorem words_eq_marks : (ws : List Word) → words ws = (marks (Word.marksOfAll ws) : Writing σ Unit)
  | [] => rfl
  | w :: ws => by
      simp only [words, Word.marksOfAll, marks_append, word_eq_marks w, words_eq_marks ws]

theorem members_eq_marks :
    (ws : List Word) → members ws = (marks (Word.marksOfMembers ws) : Writing σ Unit)
  | [] => rfl
  | w :: ws => by
      simp only [members, Word.marksOfMembers, marks_cons, marks_append, word_eq_marks w,
        members_eq_marks ws]
      rfl

theorem alternatives_eq_marks :
    (bs : List (List Word)) → alternatives bs = (marks (Word.marksOfBodies bs) : Writing σ Unit)
  | [] => rfl
  | b :: bs => by
      simp only [alternatives, Word.marksOfBodies, marks_cons, marks_append, words_eq_marks b,
        alternatives_eq_marks bs]
      rfl

end

end Writing

end GlyphFormat
