import GlyphFormat.Text.Utf8

/-!
# Reading UTF-8 back

A text without surrogates is read back from its UTF-8 (`decode_encode`), and what is read from
octets has those octets as its UTF-8 and holds no surrogate (`encode_of_decode`). So octets that can
be read and texts without surrogates belong together one to one.

Both facts are seen at a single code point, whose octets are its `Sequence`. A first octet is one of
four kinds (`lead_eq_some_iff`), and the octets that follow it are read one by one
(`follow_succ_iff`).
-/

namespace GlyphFormat

/-- No code point of the text is a surrogate, so each stands for a character. -/
def Text.IsScalar (t : Text) : Prop := ∀ c ∈ t, c.isSurrogate = false

theorem CodePoint.isSurrogate_eq_false_iff {c : CodePoint} :
    c.isSurrogate = false ↔ c.val < 0xD800 ∨ 0xDFFF < c.val := by
  simp only [isSurrogate, Bool.and_eq_false_iff, decide_eq_false_iff_not]
  omega

namespace Utf8

variable {b : UInt8} {more bits lo hi n : Nat} {s : Octets}

/-! ## Sequences of octets -/

/-- An octet that follows a first one. -/
def IsTail (b : UInt8) : Prop := 0x80 ≤ b.toNat ∧ b.toNat ≤ 0xBF

/-- The octets are the sequence of a number: the shortest one, and that of a number which is no
surrogate. -/
inductive Sequence : Octets → Nat → Prop
  | one {b : UInt8} (hb : b.toNat < 0x80) : Sequence [b] b.toNat
  | two {b c : UInt8} {n : Nat} (hb : 0xC0 ≤ b.toNat) (hc : IsTail c)
      (hn : n = (b.toNat - 0xC0) * 64 + (c.toNat - 0x80)) (hlow : 0x80 ≤ n) (hhigh : n < 0x800) :
      Sequence [b, c] n
  | three {b c d : UInt8} {n : Nat} (hb : 0xE0 ≤ b.toNat) (hc : IsTail c) (hd : IsTail d)
      (hn : n = ((b.toNat - 0xE0) * 64 + (c.toNat - 0x80)) * 64 + (d.toNat - 0x80))
      (hlow : 0x800 ≤ n) (hhigh : n < 0x10000) (hscalar : n < 0xD800 ∨ 0xDFFF < n) :
      Sequence [b, c, d] n
  | four {b c d e : UInt8} {n : Nat} (hb : 0xF0 ≤ b.toNat) (hc : IsTail c) (hd : IsTail d)
      (he : IsTail e) (hn : n = (((b.toNat - 0xF0) * 64 + (c.toNat - 0x80)) * 64 +
        (d.toNat - 0x80)) * 64 + (e.toNat - 0x80)) (hlow : 0x10000 ≤ n) (hhigh : n < 0x110000) :
      Sequence [b, c, d, e] n

theorem toNat_ofNat {n : Nat} (h : n < 0x100) : (UInt8.ofNat n).toNat = n :=
  UInt8.toNat_ofNat_of_lt' h

theorem eq_ofNat {b : UInt8} {n : Nat} (h : b.toNat = n) : UInt8.ofNat n = b := by
  rw [← h, UInt8.ofNat_toNat]

/-- What is written for a code point that is no surrogate is its sequence. -/
theorem sequence_encodeOne {c : CodePoint} (hc : c.isSurrogate = false) :
    Sequence (encodeOne c) c.val := by
  have hscalar := CodePoint.isSurrogate_eq_false_iff.mp hc
  have hlt := c.isLt
  have htail : ∀ k, IsTail (UInt8.ofNat (0x80 + k % 0x40)) ∧
      (UInt8.ofNat (0x80 + k % 0x40)).toNat - 0x80 = k % 0x40 := fun k => by
    rw [IsTail, toNat_ofNat (by omega)]
    omega
  unfold encodeOne
  dsimp only
  split
  · have hone : (UInt8.ofNat c.val).toNat = c.val := toNat_ofNat (by omega)
    have hsequence := Sequence.one (b := UInt8.ofNat c.val) (by rwa [hone])
    rwa [hone] at hsequence
  split
  · refine .two ?_ (htail _).1 ?_ (by omega) (by omega)
    · rw [toNat_ofNat (by omega)]
      omega
    · rw [toNat_ofNat (by omega), (htail _).2]
      omega
  split
  · refine .three ?_ (htail _).1 (htail _).1 ?_ (by omega) (by omega) hscalar
    · rw [toNat_ofNat (by omega)]
      omega
    · rw [toNat_ofNat (by omega), (htail _).2, (htail _).2]
      omega
  · refine .four ?_ (htail _).1 (htail _).1 (htail _).1 ?_ (by omega) hlt
    · rw [toNat_ofNat (by omega)]
      omega
    · rw [toNat_ofNat (by omega), (htail _).2, (htail _).2, (htail _).2]
      omega

/-- A sequence is what is written for its number, a code point that is no surrogate. -/
theorem Sequence.eq_encodeOne {u : Octets} {n : Nat} (h : Sequence u n) :
    ∃ c : CodePoint, c.val = n ∧ c.isSurrogate = false ∧ encodeOne c = u := by
  have hrange : n < 0x110000 ∧ (n < 0xD800 ∨ 0xDFFF < n) := by
    cases h <;> omega
  refine ⟨⟨n, hrange.1⟩, rfl, CodePoint.isSurrogate_eq_false_iff.mpr hrange.2, ?_⟩
  unfold encodeOne
  dsimp only
  cases h with
  | one hb => rw [if_pos hb, UInt8.ofNat_toNat]
  | two hb hc hn hlow hhigh =>
      unfold IsTail at hc
      rw [if_neg (by omega), if_pos hhigh]
      simp only [List.cons.injEq, and_true]
      exact ⟨eq_ofNat (by omega), eq_ofNat (by omega)⟩
  | three hb hc hd hn hlow hhigh hscalar =>
      unfold IsTail at hc hd
      rw [if_neg (by omega), if_neg (by omega), if_pos hhigh]
      simp only [List.cons.injEq, and_true]
      exact ⟨eq_ofNat (by omega), eq_ofNat (by omega), eq_ofNat (by omega)⟩
  | four hb hc hd he hn hlow hhigh =>
      unfold IsTail at hc hd he
      rw [if_neg (by omega), if_neg (by omega), if_neg (by omega)]
      simp only [List.cons.injEq, and_true]
      exact ⟨eq_ofNat (by omega), eq_ofNat (by omega), eq_ofNat (by omega), eq_ofNat (by omega)⟩

/-! ## Reading a sequence -/

variable {b : UInt8} {more bits lo hi n : Nat} {s : Octets}

/-- The four kinds of first octets. Some of them narrow the range of the second octet, which leaves
the shortest sequences and no surrogates. -/
theorem lead_eq_some_iff : lead b = some (more, bits, lo, hi) ↔
    (b.toNat < 0x80 ∧ more = 0 ∧ bits = b.toNat ∧ lo = 0x80 ∧ hi = 0xBF) ∨
    (0xC2 ≤ b.toNat ∧ b.toNat < 0xE0 ∧ more = 1 ∧ bits = b.toNat - 0xC0 ∧ lo = 0x80 ∧ hi = 0xBF) ∨
    (0xE0 ≤ b.toNat ∧ b.toNat < 0xF0 ∧ more = 2 ∧ bits = b.toNat - 0xE0 ∧
      lo = (if b.toNat = 0xE0 then 0xA0 else 0x80) ∧
      hi = (if b.toNat = 0xED then 0x9F else 0xBF)) ∨
    (0xF0 ≤ b.toNat ∧ b.toNat < 0xF5 ∧ more = 3 ∧ bits = b.toNat - 0xF0 ∧
      lo = (if b.toNat = 0xF0 then 0x90 else 0x80) ∧
      hi = (if b.toNat = 0xF4 then 0x8F else 0xBF)) := by
  unfold lead
  dsimp only
  repeat' split
  all_goals
    simp only [Option.some.injEq, Prod.mk.injEq, reduceCtorEq, false_iff]
    omega

theorem follow_zero_iff : follow 0 bits lo hi s = .ok n ↔ bits = n := by
  rw [follow, Except.ok.injEq]

/-- One more octet is read. -/
theorem follow_succ_iff : follow (more + 1) bits lo hi s = .ok n ↔
    ∃ b rest, s = b :: rest ∧ (lo ≤ b.toNat ∧ b.toNat ≤ hi) ∧
      follow more (bits * 64 + (b.toNat - 0x80)) 0x80 0xBF rest = .ok n := by
  cases s with
  | nil => exact ⟨nofun, fun ⟨_, _, h, _⟩ => nomatch h⟩
  | cons b rest =>
      rw [follow]
      constructor
      · intro h
        split at h
        · rename_i hb
          split at h
          · rename_i hrest
            exact ⟨b, rest, rfl, hb, hrest.trans h⟩
          · cases h
        · cases h
      · rintro ⟨c, rest', hs, hc, hrest⟩
        obtain ⟨rfl, rfl⟩ := List.cons.inj hs
        rw [if_pos hc, hrest]

/-- A sequence is read, whatever comes behind it. -/
theorem Sequence.read {tail : Octets} (h : Sequence (b :: tail) n) (rest : Octets) :
    ∃ bits lo hi, lead b = some (tail.length, bits, lo, hi) ∧
      follow tail.length bits lo hi (tail ++ rest) = .ok n := by
  cases h with
  | one hb =>
      exact ⟨_, _, _, lead_eq_some_iff.mpr (.inl ⟨hb, rfl, rfl, rfl, rfl⟩), follow_zero_iff.mpr rfl⟩
  | @two _ c _ hb hc hn hlow hhigh =>
      unfold IsTail at hc
      have hlead : lead b = some (1, b.toNat - 0xC0, 0x80, 0xBF) :=
        lead_eq_some_iff.mpr (.inr (.inl ⟨by omega, by omega, rfl, rfl, rfl, rfl⟩))
      exact ⟨_, _, _, hlead, follow_succ_iff.mpr ⟨c, rest, rfl, hc, follow_zero_iff.mpr hn.symm⟩⟩
  | @three _ c d _ hb hc hd hn hlow hhigh hscalar =>
      unfold IsTail at hc
      refine ⟨_, _, _, lead_eq_some_iff.mpr (.inr (.inr (.inl ⟨hb, by omega, rfl, rfl, rfl, rfl⟩))),
        follow_succ_iff.mpr ⟨c, d :: rest, rfl, ?_, follow_succ_iff.mpr ⟨d, rest, rfl, hd,
          follow_zero_iff.mpr hn.symm⟩⟩⟩
      unfold IsTail at hd
      constructor <;> split <;> omega
  | @four _ c d e _ hb hc hd he hn hlow hhigh =>
      unfold IsTail at hc
      refine ⟨_, _, _, lead_eq_some_iff.mpr (.inr (.inr (.inr ⟨hb, by omega, rfl, rfl, rfl, rfl⟩))),
        follow_succ_iff.mpr ⟨c, d :: e :: rest, rfl, ?_, follow_succ_iff.mpr ⟨d, e :: rest, rfl, hd,
          follow_succ_iff.mpr ⟨e, rest, rfl, he, follow_zero_iff.mpr hn.symm⟩⟩⟩⟩
      unfold IsTail at hd he
      constructor <;> split <;> omega

/-- Nothing but sequences is read. -/
theorem sequence_of_read (hlead : lead b = some (more, bits, lo, hi))
    (hfollow : follow more bits lo hi s = .ok n) :
    ∃ tail rest, s = tail ++ rest ∧ tail.length = more ∧ Sequence (b :: tail) n := by
  rcases lead_eq_some_iff.mp hlead with ⟨hb, rfl, rfl, -, -⟩ | ⟨hb, hb', rfl, hbits, hlo, hhi⟩ |
    ⟨hb, hb', rfl, hbits, hlo, hhi⟩ | ⟨hb, hb', rfl, hbits, hlo, hhi⟩
  · obtain rfl := follow_zero_iff.mp hfollow
    exact ⟨[], s, rfl, rfl, .one hb⟩
  · obtain ⟨c, rest, rfl, hc, hfollow⟩ := follow_succ_iff.mp hfollow
    obtain rfl := follow_zero_iff.mp hfollow
    have hrange : IsTail c := by
      unfold IsTail
      omega
    exact ⟨[c], rest, rfl, rfl, .two (by omega) hrange (by rw [hbits]) (by omega) (by omega)⟩
  · obtain ⟨c, s, rfl, hc, hfollow⟩ := follow_succ_iff.mp hfollow
    obtain ⟨d, rest, rfl, hd, hfollow⟩ := follow_succ_iff.mp hfollow
    obtain rfl := follow_zero_iff.mp hfollow
    have hrange : IsTail c ∧ (b.toNat = 0xE0 → 0xA0 ≤ c.toNat) ∧
        (b.toNat = 0xED → c.toNat ≤ 0x9F) := by
      unfold IsTail
      split at hlo <;> split at hhi <;> omega
    refine ⟨[c, d], rest, rfl, rfl, .three hb hrange.1 hd (by rw [hbits]) ?_ ?_ ?_⟩
    all_goals
      unfold IsTail at hrange
      omega
  · obtain ⟨c, s, rfl, hc, hfollow⟩ := follow_succ_iff.mp hfollow
    obtain ⟨d, s, rfl, hd, hfollow⟩ := follow_succ_iff.mp hfollow
    obtain ⟨e, rest, rfl, he, hfollow⟩ := follow_succ_iff.mp hfollow
    obtain rfl := follow_zero_iff.mp hfollow
    have hrange : IsTail c ∧ (b.toNat = 0xF0 → 0x90 ≤ c.toNat) ∧
        (b.toNat = 0xF4 → c.toNat ≤ 0x8F) := by
      unfold IsTail
      split at hlo <;> split at hhi <;> omega
    refine ⟨[c, d, e], rest, rfl, rfl, .four hb hrange.1 hd he (by rw [hbits]) ?_ ?_⟩
    all_goals
      unfold IsTail at hrange
      omega

/-! ## Texts -/

theorem encode_cons (c : CodePoint) (t : Text) : encode (c :: t) = encodeOne c ++ encode t :=
  List.flatMap_cons

/-- A text without surrogates is read back from its octets. -/
theorem decode_encode {t : Text} (ht : t.IsScalar) : decode (encode t) = .ok t := by
  unfold decode
  generalize 0 = position
  induction t generalizing position with
  | nil => exact decodeAt.eq_1 position
  | cons c t ih =>
      obtain ⟨hc, ht⟩ := List.forall_mem_cons.mp ht
      have hsequence := sequence_encodeOne hc
      rw [encode_cons]
      cases hu : encodeOne c with
      | nil =>
          rw [hu] at hsequence
          cases hsequence
      | cons b tail =>
          rw [hu] at hsequence
          obtain ⟨bits, lo, hi, hlead, hfollow⟩ := hsequence.read (encode t)
          rw [List.cons_append, decodeAt]
          simp only [hlead, hfollow, List.drop_left, ih ht, CodePoint.ofNat?_eq_some_iff.mpr rfl]
          rfl

/-- What is read from octets has no surrogate, and those octets are its UTF-8. -/
theorem encode_of_decode {s : Octets} {t : Text} (h : decode s = .ok t) :
    t.IsScalar ∧ encode t = s := by
  unfold decode at h
  generalize 0 = position at h
  fun_induction decodeAt position s generalizing t with
  | case1 =>
      obtain rfl := Except.ok.inj h
      exact ⟨fun c hc => absurd hc List.not_mem_nil, rfl⟩
  | case2 | case3 | case4 => cases h
  | case5 position b s more bits lo hi hlead n hfollow t' hrest ih =>
      obtain rfl := Except.ok.inj h
      obtain ⟨tail, rest, rfl, rfl, hsequence⟩ := sequence_of_read hlead hfollow
      obtain ⟨c, hval, hc, hu⟩ := hsequence.eq_encodeOne
      rw [List.drop_left] at ih hrest
      obtain ⟨ht, hencode⟩ := ih hrest
      rw [CodePoint.ofNat?_eq_some_iff.mpr hval]
      refine ⟨List.forall_mem_cons.mpr ⟨hc, ht⟩, ?_⟩
      rw [Option.getD_some, encode_cons, hu, hencode, List.cons_append]

end Utf8

end GlyphFormat
