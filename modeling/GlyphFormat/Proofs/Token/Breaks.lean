import GlyphFormat.Proofs.Token.Joining

/-!
# Line breaks inside brackets

`Text.unbroken` puts a space in the place of each line break that stands where a bracket is open. A
space continues no lexeme that a line break does not continue, except for a comment. So where no
comment stands inside brackets, the text spells the same lexemes as before, without those line
breaks (`Lexes.unbroken`).
-/

namespace GlyphFormat

/-! ## Brackets among lexemes -/

namespace Lexeme

/-- How many more brackets are open behind the lexeme than in front of it. -/
def nesting : Lexeme → Int
  | .openSquare | .openRound => 1
  | .closeSquare | .closeRound => -1
  | _ => 0

/-- How many more brackets the lexemes open than they close. -/
def balance : List Lexeme → Int
  | [] => 0
  | l :: ls => l.nesting + balance ls

theorem balance_append (ls ms : List Lexeme) : balance (ls ++ ms) = balance ls + balance ms := by
  induction ls with
  | nil => rw [List.nil_append, balance, Int.zero_add]
  | cons l ls ih => rw [List.cons_append, balance, balance, ih, Int.add_assoc]

/-- The lexemes without the line breaks inside brackets, where so many brackets are open. -/
def unbroken (depth : Int) : List Lexeme → List Lexeme
  | [] => []
  | l :: ls =>
    if l = .newline ∧ 0 < depth then unbroken depth ls
    else l :: unbroken (depth + l.nesting) ls

theorem unbroken_append (depth : Int) (ls ms : List Lexeme) :
    unbroken depth (ls ++ ms) = unbroken depth ls ++ unbroken (depth + balance ls) ms := by
  induction ls generalizing depth with
  | nil => rw [List.nil_append, unbroken, List.nil_append, balance, Int.add_zero]
  | cons l ls ih =>
      rw [List.cons_append, unbroken, unbroken, balance]
      by_cases hl : l = .newline ∧ 0 < depth
      · rw [if_pos hl, if_pos hl, ih, hl.1, show nesting .newline = 0 from rfl, Int.zero_add]
      · rw [if_neg hl, if_neg hl, ih, List.cons_append, Int.add_assoc]

/-- No comment stands inside brackets, where so many brackets are open. -/
def CommentsOutside (depth : Int) : List Lexeme → Prop
  | [] => True
  | l :: ls => (0 < depth → l.kind ≠ .comment) ∧ CommentsOutside (depth + l.nesting) ls

instance CommentsOutside.decidable : (depth : Int) → (ls : List Lexeme) →
    Decidable (CommentsOutside depth ls)
  | _, [] => inferInstanceAs (Decidable True)
  | depth, l :: ls =>
    haveI := CommentsOutside.decidable (depth + l.nesting) ls
    inferInstanceAs (Decidable (_ ∧ _))

/-- Each bracket is closed by one of its kind, and each that closes was opened. The stack holds what
closes the open ones. -/
def nested : List Lexeme → List Lexeme → Bool
  | stack, [] => stack.isEmpty
  | stack, .openSquare :: ls => nested (.closeSquare :: stack) ls
  | stack, .openRound :: ls => nested (.closeRound :: stack) ls
  | stack, l :: ls =>
    if l = .closeSquare ∨ l = .closeRound then stack.head? = some l && nested stack.tail ls
    else nested stack ls

theorem taken_pos_of_scan {s : Text} {l : Lexeme} (h : (scan s).result = .ok l) :
    0 < (scan s).taken ∧ s ≠ [] := by
  obtain ⟨u, v, hs⟩ := scan_split h
  have hu := List.length_pos_iff.mpr hs.nonempty
  refine ⟨by rw [hs.taken]; exact hu, fun hnil => ?_⟩
  have heq := hs.eq
  rw [hnil] at heq
  exact hs.nonempty (List.append_eq_nil_iff.mp heq.symm).1

end Lexeme

open Scanner (isSpace)

/-! ## Texts without line breaks inside brackets -/

namespace Text

/-- The text with a space for each line break inside brackets, where so many brackets are open. -/
def unbrokenAt (depth : Int) : Text → Text
  | [] => []
  | c :: s =>
    if isSpace c then c :: unbrokenAt depth s
    else
      match _ : (Lexeme.scan (c :: s)).result with
      | .error _ => c :: s
      | .ok l =>
        let taken := (Lexeme.scan (c :: s)).taken
        (if l = .newline ∧ 0 < depth then [CodePoint.ofChar ' '] else (c :: s).take taken) ++
          unbrokenAt (depth + l.nesting) ((c :: s).drop taken)
termination_by s => s.length
decreasing_by
  · exact Nat.lt_succ_self _
  · have := (Lexeme.taken_pos_of_scan ‹_›).1
    rw [List.length_drop, List.length_cons]
    omega

def unbroken (s : Text) : Text := s.unbrokenAt 0

variable {depth : Int} {s : Text} {n : Nat} {l : Lexeme}

theorem unbrokenAt_nil : unbrokenAt depth [] = [] := by rw [unbrokenAt]

theorem unbrokenAt_space {c : CodePoint} (hc : isSpace c = true) :
    unbrokenAt depth (c :: s) = c :: unbrokenAt depth s := by
  rw [unbrokenAt, if_pos hc]

theorem unbrokenAt_lexeme (hfirst : isSpace (Text.first s) = false)
    (hscan : Lexeme.scan s = .found n l) : unbrokenAt depth s =
      (if l = .newline ∧ 0 < depth then [CodePoint.ofChar ' '] else s.take n) ++
        unbrokenAt (depth + l.nesting) (s.drop n) := by
  have hok : (Lexeme.scan s).result = .ok l := by rw [hscan]; rfl
  cases s with
  | nil => exact absurd rfl (Lexeme.taken_pos_of_scan hok).2
  | cons c s =>
      rw [unbrokenAt, if_neg (by rw [show isSpace c = false from hfirst]; decide)]
      split
      · rename_i e herror
        rw [herror] at hok
        cases hok
      · rename_i l' hok'
        obtain rfl : l' = l := Except.ok.inj (hok'.symm.trans hok)
        dsimp only
        rw [hscan]
        rfl

end Text

/-! ## The lexemes that are left -/

theorem Text.head?_unbrokenAt (depth : Int) (s : Text) :
    (s.unbrokenAt depth).head? = s.head? ∨
      (0 < depth ∧ (s.unbrokenAt depth).head? = some (CodePoint.ofChar ' ')) := by
  cases s with
  | nil => exact Or.inl (by rw [unbrokenAt_nil])
  | cons c s =>
      by_cases hc : isSpace c = true
      · exact Or.inl (by rw [unbrokenAt_space hc]; rfl)
      · rw [unbrokenAt, if_neg hc]
        split
        · exact Or.inl rfl
        · rename_i l hok
          dsimp only
          by_cases hbreak : l = .newline ∧ 0 < depth
          · rw [if_pos hbreak]
            exact Or.inr ⟨hbreak.2, rfl⟩
          · rw [if_neg hbreak]
            obtain ⟨n, hn⟩ := Nat.exists_eq_succ_of_ne_zero
              (Nat.ne_of_gt (Lexeme.taken_pos_of_scan hok).1)
            rw [hn, List.take_succ_cons]
            exact Or.inl rfl

/-- Where no comment stands inside brackets, only the line breaks inside brackets are lost. -/
theorem Lexes.unbrokenAt {depth : Int} {s : Text} {ls : List Lexeme} (h : Lexes s ls)
    (hcomments : Lexeme.CommentsOutside depth ls) :
    Lexes (s.unbrokenAt depth) (Lexeme.unbroken depth ls) := by
  induction h generalizing depth with
  | done =>
      rw [Text.unbrokenAt_nil]
      exact .done
  | space hc _ ih =>
      rw [Text.unbrokenAt_space hc]
      exact .space hc (ih hcomments)
  | @lexeme s n l ls hfirst hscan _ ih =>
      have hrest := ih hcomments.2
      rw [Text.unbrokenAt_lexeme hfirst hscan, Lexeme.unbroken]
      by_cases hbreak : l = .newline ∧ 0 < depth
      · obtain ⟨rfl, hdepth⟩ := hbreak
        rw [if_pos ⟨rfl, hdepth⟩, if_pos ⟨rfl, hdepth⟩]
        rw [show depth + Lexeme.nesting .newline = depth from Int.add_zero depth] at hrest ⊢
        exact .space rfl hrest
      · rw [if_neg hbreak, if_neg hbreak]
        obtain ⟨u, v, hs, rfl⟩ := Lexeme.exists_split hscan
        have htake : s.take u.length = u := by rw [hs.eq, List.take_left]
        have hdrop : s.drop u.length = v := by rw [hs.eq, List.drop_left]
        rw [htake, hdrop]
        rw [hdrop] at hrest
        have hstops : l.Stops u (v.unbrokenAt (depth + l.nesting)) := by
          refine hs.stops.of_head hrest.head_ne_point ?_
          refine (Text.head?_unbrokenAt _ v).imp_right fun ⟨hdepth, hhead⟩ c hc => ?_
          obtain rfl := Option.some.inj (hhead.symm.trans hc)
          refine Lexeme.absorbs_space (fun hl => ?_) rfl
          -- A comment leaves as many brackets open as it found, and it found none.
          have hnone : l.nesting = 0 := by cases l <;> first | rfl | cases hl
          rw [hnone, Int.add_zero] at hdepth
          exact hcomments.1 hdepth hl
        refine .lexeme (n := u.length) ?_ (hs.scanned _ hstops) ?_
        · obtain ⟨c, u', hu⟩ := List.exists_cons_of_ne_nil hs.nonempty
          have hc := hfirst
          rw [hs.eq, hu] at hc
          rw [hu]
          exact hc
        · rw [List.drop_left]
          exact hrest

/-- The text without line breaks inside brackets spells the lexemes without them. -/
theorem Lexes.unbroken {s : Text} {ls : List Lexeme} (h : Lexes s ls)
    (hcomments : Lexeme.CommentsOutside 0 ls) : Lexes s.unbroken (Lexeme.unbroken 0 ls) :=
  h.unbrokenAt hcomments

end GlyphFormat
