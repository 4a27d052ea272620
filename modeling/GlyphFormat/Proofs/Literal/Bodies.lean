import GlyphFormat.Proofs.Token.Scanned

/-!
# Bodies of quoted literals

How an escape is written, and what may stand between the quotes of a literal, without a scan
(`Escape.Written`, `QuotedBody`).

The scan of a quoted literal passes over the longest body (`exists_body`, `scanQuoted_append`), and
what stands behind it decides the rest: the closing quote ends the literal, a backslash that begins
no escape is reported at its place, and all else leaves the literal open.
-/

namespace GlyphFormat

/-! ## Escapes -/

namespace Escape

/-- The text stands behind a backslash for the code point: one letter, or a hexadecimal number in
braces. -/
inductive Written : Text → CodePoint → Prop
  | letter {l c : CodePoint} (h : (l, c) ∈ letters) : Written [l] c
  | number {ds : Text} {c : CodePoint}
      (hds : ∀ d ∈ ds, d ≠ '\x7d' ∧ d ≠ '\x00' ∧ d ≠ '\n')
      (hc : HexNumeral.value? ds = some (c.val : Int)) :
      Written (CodePoint.ofChar 'u' :: CodePoint.ofChar '\x7b' ::
        (ds ++ [CodePoint.ofChar '\x7d'])) c

/-- An escape begins the text. -/
def Begins (v : Text) : Prop := ∃ e rest c, v = e ++ rest ∧ Written e c

theorem codePoint?_eq_some_iff {t : Text} {c : CodePoint} :
    HexNumeral.codePoint? t = some c ↔ HexNumeral.value? t = some (c.val : Int) := by
  unfold HexNumeral.codePoint?
  split
  · rename_i n hn
    rw [hn, CodePoint.ofNat?_eq_some_iff, Option.some.injEq]
    exact ⟨fun h => congrArg Int.ofNat h.symm, fun h => (Int.ofNat.inj h).symm⟩
  · rename_i hneg
    exact ⟨nofun, fun h => absurd h (hneg _)⟩

theorem isInside_iff {c : CodePoint} :
    isInside c = true ↔ c ≠ '\x7d' ∧ c ≠ '\x00' ∧ c ≠ '\n' := by
  simp [isInside, and_assoc]

theorem scanNumber_written {ds : Text} {c : CodePoint}
    (hds : ∀ d ∈ ds, d ≠ '\x7d' ∧ d ≠ '\x00' ∧ d ≠ '\n')
    (hc : HexNumeral.value? ds = some (c.val : Int)) (rest : Text) :
    scanNumber (ds ++ CodePoint.ofChar '\x7d' :: rest) = .found (ds.length + 1) c := by
  have hrun : (ds ++ CodePoint.ofChar '\x7d' :: rest).takeWhile isInside = ds := by
    refine Text.takeWhile_run (fun d hd => isInside_iff.mpr (hds d hd)) fun d hd => ?_
    obtain rfl := Option.some.inj hd
    decide
  unfold scanNumber
  simp only [hrun, List.drop_left, codePoint?_eq_some_iff.mpr hc]
  exact if_pos rfl

/-- What is written is scanned, whatever follows. -/
theorem Written.spells {e : Text} {c : CodePoint} (h : Written e c) : Spells e c := by
  intro rest
  cases h with
  | letter h =>
      have table : ∀ p ∈ letters, meaning? p.1 = some p.2 := by decide
      rw [List.singleton_append, scan, table _ h]
      rfl
  | number hds hc =>
      rename_i ds
      have hmeaning : meaning? (CodePoint.ofChar 'u') = none := by decide
      simp only [List.cons_append, List.append_assoc, List.nil_append, scan, hmeaning]
      rw [if_pos ⟨trivial, rfl⟩, List.tail_cons, scanNumber_written hds hc]
      simp only [Scan.found, List.length_cons, List.length_append, List.length_nil,
        Nat.add_comm 2]

/-- What is scanned is written. -/
theorem begins_of_scan {v : Text} {c : CodePoint} (h : (scan v).result = .ok c) :
    ∃ e rest, v = e ++ rest ∧ Written e c := by
  cases v with
  | nil => cases h
  | cons d v =>
      cases hm : meaning? d with
      | some b =>
          simp only [scan, hm] at h
          obtain rfl : b = c := Except.ok.inj h
          obtain ⟨p, hp, rfl⟩ := Option.map_eq_some_iff.mp hm
          obtain rfl : p.1 = d := by simpa using List.find?_some hp
          exact ⟨[p.1], v, rfl, .letter (List.mem_of_find?_eq_some hp)⟩
      | none =>
          simp only [scan, hm] at h
          split at h
          · rename_i hu
            obtain ⟨rfl, hbrace⟩ := hu
            obtain ⟨r, rfl⟩ := Text.eq_of_first_eq hbrace (by decide)
            have hsplit := List.takeWhile_append_dropWhile (p := isInside) (l := r)
            unfold scanNumber at h
            simp only [List.tail_cons, Text.drop_takeWhile] at h
            by_cases hclose : Text.first (r.dropWhile isInside) = '\x7d'
            · obtain ⟨rest, hrest⟩ := Text.eq_of_first_eq hclose (by decide)
              rw [if_pos hclose] at h
              cases hc : HexNumeral.codePoint? (r.takeWhile isInside) with
              | none => rw [hc] at h; cases h
              | some b =>
                  rw [hc] at h
                  obtain rfl : b = c := Except.ok.inj h
                  refine ⟨_, rest, ?_, .number (fun a ha => isInside_iff.mp
                    (Text.mem_takeWhile ha)) (codePoint?_eq_some_iff.mp hc)⟩
                  rw [hrest] at hsplit
                  simp only [List.cons_append, List.append_assoc, List.nil_append, hsplit]
            · rw [if_neg hclose] at h
              cases h
          · cases h

/-- The scan of an escape meets a fault just where no escape begins. -/
theorem begins_iff {v : Text} : Begins v ↔ ∃ c, (scan v).result = .ok c := by
  constructor
  · rintro ⟨e, rest, c, rfl, he⟩
    exact ⟨c, by rw [he.spells]; rfl⟩
  · rintro ⟨c, h⟩
    obtain ⟨e, rest, hv, he⟩ := begins_of_scan h
    exact ⟨e, rest, c, hv, he⟩

/-- A fault of an escape: it is reported at the backslash. -/
def IsFault (f : LexFault) (a : Anchor) : Prop := f ≠ .noDigits ∧ a = .before 0

theorem isFault_of_scanNumber {r : Text} {f : LexFault} {a : Anchor}
    (h : (scanNumber r).result = .error (f, a)) : IsFault f a := by
  unfold scanNumber at h
  extract_lets ds at h
  split at h
  · split at h
    · cases h
    · cases h
      exact ⟨by simp, rfl⟩
  · cases h
    exact ⟨by simp, rfl⟩

theorem isFault_of_scan {v : Text} {f : LexFault} {a : Anchor}
    (h : (scan v).result = .error (f, a)) : IsFault f a := by
  cases v with
  | nil => cases h; exact ⟨by simp, rfl⟩
  | cons d v =>
      cases hm : meaning? d with
      | some b =>
          simp only [scan, hm] at h
          cases h
      | none =>
          simp only [scan, hm] at h
          split at h
          · cases hr : (scanNumber v.tail).result with
            | ok c => simp only [hr] at h; cases h
            | error g =>
                simp only [hr] at h
                exact isFault_of_scanNumber (hr.trans h)
          · cases h
            exact ⟨by simp, rfl⟩

end Escape

/-! ## Bodies -/

/-- The text stands for the content between the quotes of a literal: plain code points, which are no
line breaks, and escapes. -/
inductive QuotedBody (q : CodePoint) : Text → Text → Prop
  | nil : QuotedBody q [] []
  | plain {c : CodePoint} {u t : Text} (hbreak : c.isLineBreak = false) (hquote : c ≠ q)
      (hescape : c ≠ '\\') (h : QuotedBody q u t) : QuotedBody q (c :: u) (c :: t)
  | escape {e u t : Text} {c : CodePoint} (he : Escape.Written e c) (h : QuotedBody q u t) :
      QuotedBody q (CodePoint.ofChar '\\' :: (e ++ u)) (c :: t)

section

variable {q : CodePoint} {what s u t : Text}

theorem Scan.after_after_map {α β γ : Type} (f : β → γ) (g : α → β) (m n : Nat) (r : Scan α) :
    ((((r.map g).after m).map f).after n) = (r.map (f ∘ g)).after (n + m) := by
  obtain ⟨k, ⟨f, anchor⟩ | a⟩ := r
  · cases anchor <;> simp [Scan.map, Scan.after, Except.map, Nat.add_assoc]
  · simp [Scan.map, Scan.after, Except.map, Nat.add_assoc]

theorem Scan.after_zero_map (r : Scan Text) : (r.map (([] : Text) ++ ·)).after 0 = r := by
  obtain ⟨k, ⟨f, anchor⟩ | a⟩ := r
  · cases anchor <;> simp [Scan.map, Scan.after, Except.map]
  · simp [Scan.map, Scan.after, Except.map]

/-- The scan passes over a body. -/
theorem scanQuoted_append (hq : IsQuote q) (h : QuotedBody q u t) :
    scanQuoted (some q) what (u ++ s) =
      ((scanQuoted (some q) what s).map (t ++ ·)).after u.length := by
  induction h with
  | nil => exact (Scan.after_zero_map _).symm
  | @plain c u t hbreak hquote hescape _ ih =>
      rw [List.cons_append, scanQuoted_plain (by rw [hbreak]; decide)
        (fun h => hquote (Option.some.inj h)) hescape, ih, Scan.after_after_map]
      rw [List.length_cons, Nat.add_comm u.length]
      rfl
  | @escape e u t c he _ ih =>
      rw [List.cons_append, List.append_assoc, scanQuoted_escape hq.ne_backslash (he.spells _),
        List.drop_left, ih, Scan.after_after_map]
      rw [List.length_cons, List.length_append, Nat.add_comm (e.length + u.length),
        ← Nat.add_assoc]
      rfl

/-- What stands behind the longest body: the end, a line break, the closing quote, or a backslash
that begins no escape. -/
inductive EndsBody (q : CodePoint) : Text → Prop
  | nil : EndsBody q []
  | lineBreak {c : CodePoint} {v : Text} (hc : c.isLineBreak = true) : EndsBody q (c :: v)
  | quote (v : Text) : EndsBody q (q :: v)
  | fault {v : Text} (hv : ¬Escape.Begins v) : EndsBody q (CodePoint.ofChar '\\' :: v)

/-- Every text has a longest body in front. -/
theorem exists_body (q : CodePoint) : ∀ s : Text,
    ∃ u v t, s = u ++ v ∧ QuotedBody q u t ∧ EndsBody q v
  | [] => ⟨[], [], [], rfl, .nil, .nil⟩
  | c :: s => by
      by_cases hbreak : c.isLineBreak = true
      · exact ⟨[], c :: s, [], rfl, .nil, .lineBreak hbreak⟩
      by_cases hquote : c = q
      · exact ⟨[], c :: s, [], rfl, .nil, hquote ▸ .quote s⟩
      by_cases hescape : c = '\\'
      · by_cases hbegins : Escape.Begins s
        · obtain ⟨e, rest, d, rfl, he⟩ := hbegins
          obtain ⟨u, v, t, rfl, hbody, hends⟩ := exists_body q rest
          exact ⟨c :: (e ++ u), v, d :: t, by simp, hescape ▸ .escape he hbody, hends⟩
        · exact ⟨[], c :: s, [], rfl, .nil, hescape ▸ .fault hbegins⟩
      · obtain ⟨u, v, t, rfl, hbody, hends⟩ := exists_body q s
        exact ⟨c :: u, v, c :: t, rfl,
          .plain (Bool.eq_false_iff.mpr hbreak) hquote hescape hbody, hends⟩
termination_by s => s.length
decreasing_by
  all_goals subst_vars
  all_goals simp only [List.length_cons, List.length_append]; omega

theorem scanQuoted_quote (hq : IsQuote q) (s : Text) :
    scanQuoted (some q) what (q :: s) = .found 1 [] := by
  rw [scanQuoted, if_neg (by rw [hq.plain.1]; decide), if_pos rfl]

/-- A body with its closing quote is the whole literal. -/
theorem scanQuoted_closed (hq : IsQuote q) (h : QuotedBody q u t) :
    scanQuoted (some q) what (u ++ q :: s) = .found (u.length + 1) t := by
  rw [scanQuoted_append hq h, scanQuoted_quote hq]
  simp [Scan.map, Scan.after, Scan.found, Except.map]

/-- A backslash that begins no escape is a fault at its place. -/
theorem scanQuoted_fault (what : Text) (hq : IsQuote q) (h : QuotedBody q u t)
    (hs : ¬Escape.Begins s) :
    ∃ k f, f ≠ .noDigits ∧ scanQuoted (some q) what (u ++ CodePoint.ofChar '\\' :: s) =
      ⟨k, .error (f, .before (u.length + 1))⟩ := by
  cases hr : (Escape.scan s).result with
  | ok c => exact absurd (Escape.begins_iff.mpr ⟨c, hr⟩) hs
  | error f =>
      obtain ⟨f, anchor⟩ := f
      obtain ⟨hdigits, rfl⟩ := Escape.isFault_of_scan hr
      have hstop : scanQuoted (some q) what (CodePoint.ofChar '\\' :: s) =
          ⟨1 + (Escape.scan s).taken, .error (f, .before 1)⟩ := by
        rw [scanQuoted, if_neg (by decide), if_neg hq.ne_backslash, if_pos rfl]
        simp only [hr]
        rfl
      exact ⟨_, f, hdigits, by rw [scanQuoted_append hq h, hstop]; rfl⟩

/-- Where neither stands behind the body, the literal is not closed. -/
theorem scanQuoted_open (hq : IsQuote q) (h : QuotedBody q u t)
    (hs : ∀ c ∈ s.head?, c.isLineBreak = true) :
    scanQuoted (some q) what (u ++ s) = .fault u.length (.unterminated what) := by
  rw [scanQuoted_append hq h]
  cases s with
  | nil => simp [scanQuoted, Scan.map, Scan.after, Scan.fault, Except.map]
  | cons c s =>
      rw [scanQuoted, if_pos (hs c rfl)]
      simp [Scan.map, Scan.after, Scan.fault, Except.map]

/-- A scan finds a body with its closing quote, or a faulty escape behind a body, or else the
literal is not closed. -/
theorem scanQuoted_cases (what : Text) (hq : IsQuote q) (s : Text) :
    (∃ u v t, s = u ++ q :: v ∧ QuotedBody q u t ∧
      scanQuoted (some q) what s = .found (u.length + 1) t) ∨
    (∃ u v t k f, s = u ++ CodePoint.ofChar '\\' :: v ∧ QuotedBody q u t ∧ ¬Escape.Begins v ∧
      f ≠ .noDigits ∧ scanQuoted (some q) what s = ⟨k, .error (f, .before (u.length + 1))⟩) ∨
    ∃ k, scanQuoted (some q) what s = .fault k (.unterminated what) := by
  obtain ⟨u, v, t, rfl, hbody, hends⟩ := exists_body q s
  cases hends with
  | nil => exact .inr (.inr ⟨_, scanQuoted_open hq hbody (by simp)⟩)
  | lineBreak hc =>
      exact .inr (.inr ⟨_, scanQuoted_open hq hbody fun d hd => Option.some.inj hd ▸ hc⟩)
  | quote v => exact .inl ⟨u, v, t, rfl, hbody, scanQuoted_closed hq hbody⟩
  | @fault v hv =>
      obtain ⟨k, f, hdigits, hscan⟩ := scanQuoted_fault what hq hbody hv
      exact .inr (.inl ⟨u, v, t, k, f, rfl, hbody, hv, hdigits, hscan⟩)

/-- A literal that is found is a body with its closing quote. -/
theorem body_of_scanQuoted (hq : IsQuote q)
    (h : (scanQuoted (some q) what s).result = .ok t) :
    ∃ u v, s = u ++ q :: v ∧ QuotedBody q u t := by
  rcases scanQuoted_cases what hq s with ⟨u, v, t', hs, hbody, hscan⟩ |
    ⟨u, v, t', k, f, -, -, -, -, hscan⟩ | ⟨k, hscan⟩ <;> rw [hscan] at h <;> cases h
  exact ⟨u, v, hs, hbody⟩

end

end GlyphFormat
