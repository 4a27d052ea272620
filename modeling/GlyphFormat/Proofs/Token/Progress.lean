import GlyphFormat.Proofs.Token.Coverage

/-!
# Progress of a scan

A scan goes on until the source ends or does not go on, and it never takes more than there is. A
step that passes over blanks or finds a token takes code points, and so does, maybe, one that meets
a fault; all of them stand in the source (`Scanning.Proceeds`). Behind the end the scanner would
meet the character NUL, and no step gets there: what a token says is said by code points of the
source, be NUL among them or not.

Rounds that use up something come to an end (`Rounds.exists_last`), so there are at most as many
steps and tokens as code points, the end of input apart.
-/

namespace GlyphFormat

/-! ## Rounds -/

/-- That many rounds lead from the one state to the other. -/
inductive Rounds {α : Type} (next : α → Option α) : Nat → α → α → Prop
  | refl (a : α) : Rounds next 0 a a
  | cons {n : Nat} {a b c : α} (h : next a = some b) (hmore : Rounds next n b c) :
      Rounds next (n + 1) a c

namespace Rounds

variable {α : Type} {next : α → Option α} {n : Nat} {a c : α}

/-- What every round keeps is kept. -/
theorem keeps {p : α → Prop} (hround : ∀ a b, next a = some b → p a → p b)
    (h : Rounds next n a c) (ha : p a) : p c := by
  induction h with
  | refl => exact ha
  | cons hab _ ih => exact ih (hround _ _ hab ha)

variable {left : α → Nat}

/-- There are no more rounds than what they use up. -/
theorem add_le (hround : ∀ a b, next a = some b → left b < left a) (h : Rounds next n a c) :
    n + left c ≤ left a := by
  induction h with
  | refl => exact Nat.le_of_eq (Nat.zero_add _)
  | cons hab _ ih =>
      have hlt := hround _ _ hab
      omega

theorem exists_last (hround : ∀ a b, next a = some b → left b < left a) (a : α) :
    ∃ n c, Rounds next n a c ∧ next c = none := by
  cases hab : next a with
  | none => exact ⟨0, a, .refl a, hab⟩
  | some b =>
      have hlt := hround a b hab
      obtain ⟨n, c, hrounds, hc⟩ := exists_last hround b
      exact ⟨n + 1, c, .cons hab hrounds, hc⟩
termination_by left a

end Rounds

/-! ## Scans take what there is -/

/-- What begins with a character other than NUL is not empty. -/
theorem Text.length_pos_of_first {s : Text} {a : Char} (h : first s = a) (ha : a ≠ '\x00') :
    0 < s.length := by
  obtain ⟨r, rfl⟩ := eq_of_first_eq h ha
  exact Nat.succ_pos _

namespace Escape

theorem taken_scanNumber_le (s : Text) : (scanNumber s).taken ≤ s.length := by
  have hdigits : (s.takeWhile isInside).length ≤ s.length := (List.takeWhile_prefix _).length_le
  unfold scanNumber
  extract_lets digits
  split
  · rename_i hclose
    have hpos := Text.length_pos_of_first hclose (by decide)
    rw [List.length_drop] at hpos
    have hle : digits.length + 1 ≤ s.length := by omega
    split <;> exact hle
  · exact hdigits

theorem taken_scan_le (s : Text) : (scan s).taken ≤ s.length := by
  cases s with
  | nil => exact Nat.le_refl 0
  | cons c s =>
      have hone : 1 ≤ (c :: s).length := Nat.succ_pos _
      cases hm : meaning? c with
      | some d =>
          simp only [scan, hm]
          exact hone
      | none =>
          simp only [scan, hm]
          split
          · rename_i hu
            have hpos := Text.length_pos_of_first hu.2 (by decide)
            have hle := taken_scanNumber_le s.tail
            rw [List.length_tail] at hle
            have hall : 2 + (scanNumber s.tail).taken ≤ (c :: s).length := by
              rw [List.length_cons]
              omega
            split <;> exact hall
          · exact hone

end Escape

theorem taken_scanQuoted_le (quote : Option CodePoint) (what s : Text) :
    (scanQuoted quote what s).taken ≤ s.length := by
  fun_induction scanQuoted quote what s with
  | case1 => exact Nat.le_refl 0
  | case2 => exact Nat.zero_le _
  | case3 => exact Nat.succ_pos _
  | case4 s r f hf hb =>
      have hle : r.taken ≤ s.length := Escape.taken_scan_le s
      show 1 + r.taken ≤ s.length + 1
      omega
  | case5 s r d hr hb hq =>
      rename_i ih
      have hle : r.taken ≤ s.length := Escape.taken_scan_le s
      rw [List.length_drop] at ih
      show 1 + r.taken + (scanQuoted quote what (s.drop r.taken)).taken ≤ s.length + 1
      omega
  | case6 c s hb hq he ih =>
      show 1 + (scanQuoted quote what s).taken ≤ s.length + 1
      omega

namespace Lexeme

variable {s : Text} {c : CodePoint}

theorem taken_scanNumber_le (s : Text) : (scanNumber s).taken ≤ s.length := by
  unfold scanNumber
  extract_lets whole places taken
  have hwhole : whole.length ≤ s.length := (List.takeWhile_prefix _).length_le
  have htaken : taken ≤ s.length := by
    unfold taken
    split
    · exact hwhole
    · rename_i hplaces
      obtain ⟨v, hv, -⟩ := fraction_split hplaces
      have hlength : (s.drop whole.length).length = (places.length + v.length) + 1 :=
        (congrArg List.length hv).trans (by simp [places])
      rw [List.length_drop] at hlength
      omega
  split
  · exact Nat.zero_le _
  · split <;> exact htaken

theorem taken_scanChar_le (s : Text) : (scanChar s).taken ≤ s.length := by
  have hbody := taken_scanQuoted_le (some '\'') "character literal" s
  unfold scanChar
  dsimp only
  split
  · split <;> exact hbody
  · exact hbody

theorem taken_scanNewline_le (c : CodePoint) (s : Text) :
    (scanNewline (c :: s)).taken ≤ (c :: s).length := by
  rw [scanNewline_cons]
  split
  · split
    · rename_i hfeed
      exact Nat.succ_le_succ (Text.length_pos_of_first hfeed (by decide))
    · exact Nat.zero_le _
  · exact Nat.succ_pos _

theorem taken_scanSelector_le (s : Text) : (scanSelector s).taken ≤ s.length := by
  unfold scanSelector
  extract_lets letters
  split
  · exact Nat.zero_le _
  · exact (List.takeWhile_prefix _).length_le

theorem taken_afterOne_le {scan : Text → Scan Lexeme} (h : (scan s).taken ≤ s.length) :
    (afterOne scan (c :: s)).taken ≤ (c :: s).length := by
  show 1 + (scan s).taken ≤ s.length + 1
  omega

/-- A scan takes no more than there is, whether it finds a lexeme or meets a fault. -/
theorem taken_scan_le (s : Text) : (scan s).taken ≤ s.length := by
  cases s with
  | nil => exact Nat.le_refl 0
  | cons c s =>
      rw [scan, first_cons]
      cases Opening.of c with
      | comment => exact taken_afterOne_le (List.takeWhile_prefix _).length_le
      | newline => exact taken_scanNewline_le c s
      | string => exact taken_afterOne_le (taken_scanQuoted_le _ _ s)
      | char => exact taken_afterOne_le (taken_scanChar_le s)
      | number => exact taken_scanNumber_le _
      | selector => exact taken_afterOne_le (taken_scanSelector_le s)
      | letter => exact (List.takeWhile_prefix _).length_le
      | glyph p => exact Nat.succ_pos _
      | punctuation l => exact Nat.succ_pos _
      | nothing => exact Nat.zero_le _

/-! ## What tokens say -/

/-- The text that a lexeme carries as its value. -/
def content : Lexeme → Text
  | .char t | .string t | .ident t | .selector t | .comment t => t
  | _ => []

end Lexeme

/-- The code point stands in the text, or an escape for it does. -/
def Text.Shows (u : Text) (c : CodePoint) : Prop :=
  c ∈ u ∨ ∃ a e b, u = a ++ CodePoint.ofChar '\\' :: (e ++ b) ∧ Escape.Written e c

theorem Text.Shows.inside {u : Text} {c : CodePoint} (h : u.Shows c) (v w : Text) :
    (v ++ (u ++ w)).Shows c := by
  rcases h with h | ⟨a, e, b, rfl, he⟩
  · exact .inl (by simp [h])
  · exact .inr ⟨v ++ a, e, b ++ w, by simp, he⟩

theorem QuotedBody.shows {q : CodePoint} {u t : Text} (h : QuotedBody q u t) :
    ∀ c ∈ t, u.Shows c := by
  induction h with
  | nil => exact nofun
  | @plain d u t _ _ _ _ ih =>
      refine List.forall_mem_cons.mpr ⟨.inl List.mem_cons_self, fun c hc => ?_⟩
      have := (ih c hc).inside [d] []
      rwa [List.append_nil] at this
  | @escape e u t d he _ ih =>
      refine List.forall_mem_cons.mpr ⟨.inr ⟨[], e, u, rfl, he⟩, fun c hc => ?_⟩
      have := (ih c hc).inside (CodePoint.ofChar '\\' :: e) []
      rwa [List.append_nil] at this

/-- The lexeme is written with the text, which shows all that its value is made of. -/
structure Lexeme.SaidBy (l : Lexeme) (u : Text) : Prop where
  written : l.Written u
  shows : ∀ c ∈ l.content, u.Shows c

theorem Lexeme.Written.saidBy {l : Lexeme} {u : Text} (h : l.Written u) : l.SaidBy u := by
  refine ⟨h, fun c hc => ?_⟩
  cases h with
  | glyph _ | newline _ | whole _ _ _ | fraction _ _ _ _ _ => cases hc
  | mark hmark =>
      have table : ∀ p ∈ Lexeme.marks, p.2.content = [] := by decide
      rw [table _ hmark] at hc
      cases hc
  | comment _ => exact .inl (List.mem_cons_of_mem _ (Text.mem_of_mem_ofComment hc))
  | ident _ _ => exact .inl hc
  | selector _ _ => exact .inl (List.mem_cons_of_mem _ hc)
  | string hbody => exact (hbody.shows c hc).inside [_] [_]
  | char hbody => exact (hbody.shows c hc).inside [_] [_]

/-! ## Steps -/

namespace Scanner

variable {source : Text} {s : Scanner} {k : Nat}

/-- The scanner has taken the front of the source, and the rest is left. -/
structure Within (source : Text) (s : Scanner) : Prop where
  rest : s.rest = source.drop s.taken
  taken_le : s.taken ≤ source.length

theorem within_ofText (source : Text) : (ofText source).Within source := ⟨rfl, Nat.zero_le _⟩

theorem Within.length (h : s.Within source) : s.taken + s.rest.length = source.length := by
  have := h.taken_le
  rw [h.rest, List.length_drop]
  omega

theorem Within.rest_ne_nil_iff (h : s.Within source) :
    s.rest ≠ [] ↔ s.taken < source.length := by
  have := h.length
  rw [← List.length_pos_iff]
  omega

theorem Within.advance (h : s.Within source) (hk : k ≤ s.rest.length) :
    (s.advance k).Within source where
  rest := by
    show s.rest.drop k = source.drop (s.taken + k)
    rw [h.rest, List.drop_drop]
  taken_le := by
    have := h.length
    show s.taken + k ≤ source.length
    omega

theorem Within.markHere (h : s.Within source) : s.markHere.Within source := ⟨h.rest, h.taken_le⟩

theorem Within.behind (h : s.Within source) (hk : k ≤ s.rest.length) (l : Lexeme) :
    (s.behind k l).Within source := by
  have := h.advance hk
  unfold Scanner.behind
  split <;> exact ⟨this.rest, this.taken_le⟩

theorem taken_behind (l : Lexeme) : (s.behind k l).taken = s.taken + k := by
  unfold behind
  split <;> rfl

/-- All that a step can do. -/
theorem step_cases (s : Scanner) :
    (∃ k, 0 < k ∧ k ≤ s.rest.length ∧ s.step = (.ok none, s.advance k)) ∨
    (∃ u v l, s.rest = u ++ v ∧ Lexeme.Written u l ∧
      s.step = (.ok (some (s.tokenHere u.length l)), s.behind u.length l)) ∨
    ∃ k f p, k ≤ s.rest.length ∧ f ≠ .noDigits ∧
      s.step = (.error ⟨f, p⟩, s.markHere.advance k) := by
  by_cases hs : s.spaces = 0
  · have hle := Lexeme.taken_scan_le s.rest
    obtain ⟨k, result, hscan⟩ : ∃ k result, Lexeme.scan s.rest = ⟨k, result⟩ := ⟨_, _, rfl⟩
    rw [hscan] at hle
    cases result with
    | error fault =>
        obtain ⟨f, anchor⟩ := fault
        have hfault := (Lexeme.isFault_of_scan (r := s.rest) (by rw [hscan])).1
        exact .inr (.inr ⟨k, f, _, hle, hfault, step_of_failed hs hscan⟩)
    | ok l =>
        obtain ⟨u, v, heq, rfl, hwritten, -⟩ := Lexeme.exists_written hscan
        exact .inr (.inl ⟨u, v, l, heq, hwritten, step_of_found hs hscan⟩)
  · exact .inl ⟨s.spaces, Nat.pos_of_ne_zero hs, (List.takeWhile_prefix _).length_le,
      step_of_space hs⟩

/-- In front of the end no NUL is made up. -/
theorem ahead_of_le (hk : k ≤ s.rest.length) : s.ahead k = s.rest.take k := by
  rw [ahead, Nat.sub_eq_zero_of_le hk, List.replicate_zero, List.append_nil]

/-- What the scanner hands out stands in the source, as long as it does not go past the end. -/
theorem Within.ahead (h : s.Within source) (hk : k ≤ s.rest.length) :
    s.ahead k = source.extract s.taken (s.taken + k) := by
  rw [ahead_of_le hk, h.rest, List.extract_eq_take_drop, Nat.add_sub_cancel_left]

/-- No step gets past the end. -/
theorem Within.step (h : s.Within source) : s.step.2.Within source := by
  rcases step_cases s with ⟨k, -, hk, hstep⟩ | ⟨u, v, l, heq, -, hstep⟩ |
    ⟨k, f, p, hk, -, hstep⟩ <;> rw [hstep]
  · exact h.advance hk
  · exact h.behind (by rw [heq, List.length_append]; exact Nat.le_add_right _ _) l
  · exact h.markHere.advance hk

end Scanner

/-- A scan on its way: the scanner, and the tokens that are found so far. -/
structure Scanning where
  scanner : Scanner
  found : List Token
  deriving DecidableEq

namespace Scanning

def ofText (source : Text) : Scanning := ⟨.ofText source, []⟩

/-- How many code points are left. -/
def left (s : Scanning) : Nat := s.scanner.rest.length

/-- One more step. There is none at the end, nor where the step meets a fault. -/
def next (s : Scanning) : Option Scanning :=
  if s.scanner.rest = [] then none
  else
    match s.scanner.step with
    | (.ok token, t) => some ⟨t, s.found ++ token.toList⟩
    | (.error _, _) => none

/-- The next step passes over blanks, finds one token or meets a fault, and in no case it takes more
than the source. If it succeeds it takes something; what the token says is said by that. -/
inductive Proceeds (source : Text) (s : Scanning) : Prop
  | blanks {t : Scanner} (hnext : s.next = some ⟨t, s.found⟩) (hlt : s.scanner.taken < t.taken)
      (hle : t.taken ≤ source.length)
  | token {t : Scanner} {token : Token} {u : Text} (hnext : s.next = some ⟨t, s.found ++ [token]⟩)
      (hlt : s.scanner.taken < t.taken) (hle : t.taken ≤ source.length)
      (hahead : s.scanner.ahead (t.taken - s.scanner.taken) = u)
      (hu : source.extract s.scanner.taken t.taken = u) (hsaid : token.lexeme.SaidBy u)
  | fault {t : Scanner} {e : LexError} (hstep : s.scanner.step = (.error e, t))
      (hle : t.taken ≤ source.length) (hfault : e.fault ≠ .noDigits)

variable {source : Text} {s t : Scanning}

theorem next_eq_some (h : s.next = some t) : s.scanner.rest ≠ [] ∧
    ∃ token, s.scanner.step = (.ok token, t.scanner) ∧ t.found = s.found ++ token.toList := by
  unfold next at h
  split at h
  · cases h
  · rename_i hne
    refine ⟨hne, ?_⟩
    split at h
    · rename_i token u hstep
      obtain rfl := Option.some.inj h
      exact ⟨token, hstep, rfl⟩
    · cases h

theorem next_of_step {token : Option Token} {u : Scanner} (hne : s.scanner.rest ≠ [])
    (hstep : s.scanner.step = (.ok token, u)) : s.next = some ⟨u, s.found ++ token.toList⟩ := by
  rw [next, if_neg hne, hstep]

theorem next_eq_none (h : s.next = none) (hne : s.scanner.rest ≠ []) :
    ∃ e u, s.scanner.step = (.error e, u) := by
  rcases hstep : s.scanner.step with ⟨e | token, u⟩
  · exact ⟨e, u, rfl⟩
  · rw [next_of_step hne hstep] at h
    cases h

/-- In front of the end a scan proceeds. -/
theorem proceeds (h : s.scanner.Within source) (hne : s.scanner.rest ≠ []) :
    s.Proceeds source := by
  have hle := h.step.taken_le
  rcases Scanner.step_cases s.scanner with ⟨k, hpos, -, hstep⟩ | ⟨u, v, l, heq, hwritten, hstep⟩ |
    ⟨k, f, p, -, hfault, hstep⟩ <;> rw [hstep] at hle
  · have hnext := next_of_step hne hstep
    rw [Option.toList_none, List.append_nil] at hnext
    exact .blanks hnext (Nat.lt_add_of_pos_right hpos) hle
  · have hk : u.length ≤ s.scanner.rest.length := by
      rw [heq, List.length_append]
      exact Nat.le_add_right _ _
    have hahead : s.scanner.ahead u.length = u := by
      rw [Scanner.ahead_of_le hk, heq, List.take_left]
    have htaken := Scanner.taken_behind (s := s.scanner) (k := u.length) l
    refine .token (next_of_step hne hstep) ?_ hle ?_ ?_ hwritten.saidBy <;> rw [htaken]
    · exact Nat.lt_add_of_pos_right (List.length_pos_iff.mpr hwritten.first.1)
    · rw [Nat.add_sub_cancel_left, hahead]
    · rw [← h.ahead hk, hahead]
  · exact .fault hstep hle hfault

theorem within_next (h : s.scanner.Within source) (hnext : s.next = some t) :
    t.scanner.Within source := by
  obtain ⟨-, token, hstep, -⟩ := next_eq_some hnext
  have := h.step
  rwa [hstep] at this

/-- A step uses up some of what is left, and adds one token at most. -/
theorem left_next (hnext : s.next = some t) :
    t.left < s.left ∧ t.found.length + t.left ≤ s.found.length + s.left := by
  obtain ⟨hne, token, hstep, hfound⟩ := next_eq_some hnext
  have hlt : t.left < s.left := Scanner.length_rest_lt_of_step hne hstep
  have htoken : token.toList.length ≤ 1 := by cases token <;> simp
  rw [hfound, List.length_append]
  omega

/-! ## The whole scan -/

/-- The tokens of the scan when it is done, and the fault that it meets. -/
def outcome (s : Scanning) : List Token × Option LexError :=
  (s.found ++ s.scanner.tokens.1, s.scanner.tokens.2.1)

theorem outcome_ofText (source : Text) : (ofText source).outcome = tokenize source := rfl

/-- A step leaves open what the scan comes to. -/
theorem outcome_next (hnext : s.next = some t) : t.outcome = s.outcome := by
  obtain ⟨hne, token, hstep, hfound⟩ := next_eq_some hnext
  rw [outcome, outcome, Scanner.tokens_of_step hne hstep, hfound, List.append_assoc]

/-- What a scan that stops has come to: all tokens at the end of the source, or the fault that the
next step meets. -/
theorem outcome_of_stopped (h : s.next = none) :
    s.scanner.rest = [] ∧
        s.outcome = (s.found ++ [s.scanner.markHere.token .endOfInput], none) ∨
      s.scanner.rest ≠ [] ∧ ∃ e, s.scanner.step.1 = .error e ∧ s.outcome = (s.found, some e) := by
  by_cases hne : s.scanner.rest = []
  · exact .inl ⟨hne, by rw [outcome, Scanner.tokens_of_end hne]⟩
  · obtain ⟨e, u, hstep⟩ := next_eq_none h hne
    refine .inr ⟨hne, e, by rw [hstep], ?_⟩
    rw [outcome, Scanner.tokens_of_fault hne hstep, List.append_nil]

end Scanning

/-- A scan proceeds in every state that it gets to in front of the end, so it comes to the end or to
a fault. It has no more steps than the source has code points, and no more tokens, the end of input
apart. -/
theorem tokenize_proceeds (source : Text) :
    (∀ n s, Rounds Scanning.next n (.ofText source) s → s.scanner.taken < source.length →
      s.Proceeds source) ∧
    (∃ n last, Rounds Scanning.next n (.ofText source) last ∧
      match (tokenize source).2 with
      | none => n ≤ source.length ∧ last.scanner.taken = source.length ∧
        (tokenize source).1 = last.found ++ [last.scanner.markHere.token .endOfInput]
      | some e => n + 1 ≤ source.length ∧ last.scanner.taken < source.length ∧
        last.scanner.step.1 = .error e ∧ (tokenize source).1 = last.found) ∧
    (tokenize source).1.length ≤ source.length + 1 := by
  have hwithin : ∀ {n s}, Rounds Scanning.next n (.ofText source) s →
      s.scanner.Within source := fun h =>
    h.keeps (p := fun s => s.scanner.Within source)
      (fun _ _ hnext h => Scanning.within_next h hnext) (Scanner.within_ofText source)
  refine ⟨fun n s h hlt => Scanning.proceeds (hwithin h) ((hwithin h).rest_ne_nil_iff.mpr hlt), ?_⟩
  have hleft : ∀ a b : Scanning, a.next = some b → b.left < a.left :=
    fun _ _ hnext => (Scanning.left_next hnext).1
  obtain ⟨n, last, hrounds, hlast⟩ := Rounds.exists_last hleft (.ofText source)
  have hn : n + last.left ≤ source.length := hrounds.add_le hleft
  have hfound : last.found.length + last.left ≤ source.length :=
    hrounds.keeps (p := fun s => s.found.length + s.left ≤ source.length)
      (fun _ _ hnext h => (Scanning.left_next hnext).2.trans h) (Nat.zero_add _).le
  have houtcome : last.outcome = tokenize source :=
    hrounds.keeps (p := fun s => s.outcome = tokenize source)
      (fun _ _ hnext h => (Scanning.outcome_next hnext).trans h) (Scanning.outcome_ofText source)
  have hlength : last.scanner.taken + last.left = source.length := (hwithin hrounds).length
  rcases Scanning.outcome_of_stopped hlast with ⟨hend, hout⟩ | ⟨hne, e, hstep, hout⟩ <;>
    rw [← houtcome, hout]
  · have hzero : last.left = 0 := congrArg List.length hend
    refine ⟨⟨n, last, hrounds, by omega, by omega, rfl⟩, ?_⟩
    rw [List.length_append, List.length_singleton]
    omega
  · have hlt := (hwithin hrounds).rest_ne_nil_iff.mp hne
    exact ⟨⟨n, last, hrounds, by omega, hlt, hstep, rfl⟩, by dsimp only; omega⟩

/-- Behind a blank, a comment that is a NUL and ends with the source. -/
theorem tokenize_proceeds_nul :
    Rounds Scanning.next 1 (.ofText " #\x00") ⟨⟨"#\x00", 1, ⟨1, 2⟩, ⟨1, 1⟩⟩, []⟩ ∧
      Scanning.Proceeds " #\x00" ⟨⟨"#\x00", 1, ⟨1, 2⟩, ⟨1, 1⟩⟩, []⟩ ∧
      (tokenize " #\x00").1.length ≤ 4 := by
  have hrounds : Rounds Scanning.next 1 (.ofText " #\x00")
      ⟨⟨"#\x00", 1, ⟨1, 2⟩, ⟨1, 1⟩⟩, []⟩ := .cons (by decide +kernel) (.refl _)
  have h := tokenize_proceeds " #\x00"
  exact ⟨hrounds, h.1 1 _ hrounds (by decide), h.2.2⟩

end GlyphFormat
