import PlonkKzg.Text.Base64

/-!
# Reading base64 text

The text of bytes is read as these bytes. A group of three bytes is four symbols of six bits each,
and no symbol is the padding character, so the reader meets the padding where it was written. The
other texts that are read as the same bytes have the same symbols and less padding, as the bits that
no byte uses are zero.

* `Base64.symbol_ne_padding`, `Base64.value?_eq_some` — symbols are not the padding character, and
  no other characters have values;
* `Base64.decodeTwo?_symbols`, `Base64.decodeThree?_symbols`, `Base64.decodeFour?_symbols` — the
  symbols of one, two and three bytes, and that no others write them (`Base64.decodeTwo?_eq_some`,
  `Base64.decodeThree?_eq_some`, `Base64.decodeFour?_eq_some`);
* `Base64.bare`, `Base64.paddingLength` — the symbols of a text, and how many characters fill it up;
* `Base64.encodeChars_eq`, `Base64.forall_mem_encodeChars` — the written text and its characters;
* `Base64.decodeChars?_bare`, `Base64.eq_of_decodeChars?` — the texts that are read as given bytes;
* `Base64.decode?_encode`, `Base64.decode?_eq_some_iff`, `Base64.bare_eq_of_decode?` — the same for
  strings.
-/

namespace PlonkKzg.Base64

/-- No symbol is the padding character. -/
theorem symbol_ne_padding : ∀ v < 64, symbol v ≠ '=' := by decide

/-- A character with a value is the symbol of that value. -/
theorem value?_eq_some {c : Char} {v : Nat} (h : value? c = some v) : v < 64 ∧ symbol v = c := by
  revert h
  fun_cases value? c with
  | case1 hc =>
      intro h
      cases h
      have hcode : 65 + (c.toNat - 65) = c.toNat := by omega
      refine ⟨by omega, ?_⟩
      rw [symbol, if_pos (by omega), hcode, Char.ofNat_toNat]
  | case2 _ hc =>
      intro h
      cases h
      have hcode : 97 + (c.toNat - 97 + 26 - 26) = c.toNat := by omega
      refine ⟨by omega, ?_⟩
      rw [symbol, if_neg (by omega), if_pos (by omega), hcode, Char.ofNat_toNat]
  | case3 _ _ hc =>
      intro h
      cases h
      have hcode : 48 + (c.toNat - 48 + 52 - 52) = c.toNat := by omega
      refine ⟨by omega, ?_⟩
      rw [symbol, if_neg (by omega), if_neg (by omega), if_pos (by omega), hcode,
        Char.ofNat_toNat]
  | case4 _ _ _ hc =>
      intro h
      cases h
      exact ⟨by decide, hc.symm⟩
  | case5 _ _ _ _ hc =>
      intro h
      cases h
      exact ⟨by decide, hc.symm⟩
  | case6 => exact nofun

/-! ### One group -/

/-- The four six-bit values of three bytes give the bytes back. -/
theorem decodeFour?_symbols (a b c : UInt8) :
    decodeFour? (symbol (a.toNat / 4)) (symbol (a.toNat % 4 * 16 + b.toNat / 16))
      (symbol (b.toNat % 16 * 4 + c.toNat / 64)) (symbol (c.toNat % 64)) = some [a, b, c] := by
  have ha := a.toNat_lt
  have hb := b.toNat_lt
  have hc := c.toNat_lt
  have hfirst : a.toNat / 4 * 4 + (a.toNat % 4 * 16 + b.toNat / 16) / 16 = a.toNat := by omega
  have hsecond : (a.toNat % 4 * 16 + b.toNat / 16) % 16 * 16 +
      (b.toNat % 16 * 4 + c.toNat / 64) / 4 = b.toNat := by omega
  have hthird : (b.toNat % 16 * 4 + c.toNat / 64) % 4 * 64 + c.toNat % 64 = c.toNat := by omega
  rw [decodeFour?, value?_symbol _ (by omega), value?_symbol _ (by omega),
    value?_symbol _ (by omega), value?_symbol _ (by omega)]
  simp only [Option.bind_eq_bind, Option.bind_some, hfirst, hsecond, hthird, UInt8.ofNat_toNat]

/-- Three symbols decode to the two bytes they spell. -/
theorem decodeThree?_symbols (a b : UInt8) :
    decodeThree? (symbol (a.toNat / 4)) (symbol (a.toNat % 4 * 16 + b.toNat / 16))
      (symbol (b.toNat % 16 * 4)) = some [a, b] := by
  have ha := a.toNat_lt
  have hb := b.toNat_lt
  have hfirst : a.toNat / 4 * 4 + (a.toNat % 4 * 16 + b.toNat / 16) / 16 = a.toNat := by omega
  have hsecond : (a.toNat % 4 * 16 + b.toNat / 16) % 16 * 16 + b.toNat % 16 * 4 / 4 = b.toNat := by
    omega
  have hunused : b.toNat % 16 * 4 % 4 = 0 := by omega
  rw [decodeThree?, value?_symbol _ (by omega), value?_symbol _ (by omega),
    value?_symbol _ (by omega)]
  simp only [Option.bind_eq_bind, Option.bind_some, hfirst, hsecond, hunused, if_true,
    UInt8.ofNat_toNat]

theorem decodeTwo?_symbols (a : UInt8) :
    decodeTwo? (symbol (a.toNat / 4)) (symbol (a.toNat % 4 * 16)) = some [a] := by
  have ha := a.toNat_lt
  have hbyte : a.toNat / 4 * 4 + a.toNat % 4 * 16 / 16 = a.toNat := by omega
  have hunused : a.toNat % 4 * 16 % 16 = 0 := by omega
  rw [decodeTwo?, value?_symbol _ (by omega), value?_symbol _ (by omega)]
  simp only [Option.bind_eq_bind, Option.bind_some, hbyte, hunused, if_true, UInt8.ofNat_toNat]

theorem decodeTwo?_eq_some {a b : Char} {bs : List UInt8} (h : decodeTwo? a b = some bs) :
    ∃ x : UInt8, bs = [x] ∧ a = symbol (x.toNat / 4) ∧ b = symbol (x.toNat % 4 * 16) := by
  simp only [decodeTwo?, Option.bind_eq_bind, Option.bind_eq_some_iff,
    Option.ite_none_right_eq_some, Option.some.injEq] at h
  obtain ⟨u, hu, v, hv, hunused, rfl⟩ := h
  obtain ⟨hu, rfl⟩ := value?_eq_some hu
  obtain ⟨hv, rfl⟩ := value?_eq_some hv
  have hx := UInt8.toNat_ofNat_of_lt' (show u * 4 + v / 16 < 256 by omega)
  refine ⟨_, rfl, ?_, ?_⟩
  · exact congrArg symbol (by omega)
  · exact congrArg symbol (by omega)

/-- Whatever decodes to two bytes is spelled by their symbols: unused bits must be zero. -/
theorem decodeThree?_eq_some {a b c : Char} {bs : List UInt8} (h : decodeThree? a b c = some bs) :
    ∃ x y : UInt8, bs = [x, y] ∧ a = symbol (x.toNat / 4) ∧
      b = symbol (x.toNat % 4 * 16 + y.toNat / 16) ∧ c = symbol (y.toNat % 16 * 4) := by
  simp only [decodeThree?, Option.bind_eq_bind, Option.bind_eq_some_iff,
    Option.ite_none_right_eq_some, Option.some.injEq] at h
  obtain ⟨u, hu, v, hv, w, hw, hunused, rfl⟩ := h
  obtain ⟨hu, rfl⟩ := value?_eq_some hu
  obtain ⟨hv, rfl⟩ := value?_eq_some hv
  obtain ⟨hw, rfl⟩ := value?_eq_some hw
  have hx := UInt8.toNat_ofNat_of_lt' (show u * 4 + v / 16 < 256 by omega)
  have hy := UInt8.toNat_ofNat_of_lt' (show v % 16 * 16 + w / 4 < 256 by omega)
  refine ⟨_, _, rfl, ?_, ?_, ?_⟩
  · exact congrArg symbol (by omega)
  · exact congrArg symbol (by omega)
  · exact congrArg symbol (by omega)

theorem decodeFour?_eq_some {a b c d : Char} {bs : List UInt8}
    (h : decodeFour? a b c d = some bs) :
    ∃ x y z : UInt8, bs = [x, y, z] ∧ a = symbol (x.toNat / 4) ∧
      b = symbol (x.toNat % 4 * 16 + y.toNat / 16) ∧
      c = symbol (y.toNat % 16 * 4 + z.toNat / 64) ∧ d = symbol (z.toNat % 64) := by
  simp only [decodeFour?, Option.bind_eq_bind, Option.bind_eq_some_iff, Option.some.injEq] at h
  obtain ⟨u, hu, v, hv, w, hw, t, ht, rfl⟩ := h
  obtain ⟨hu, rfl⟩ := value?_eq_some hu
  obtain ⟨hv, rfl⟩ := value?_eq_some hv
  obtain ⟨hw, rfl⟩ := value?_eq_some hw
  obtain ⟨ht, rfl⟩ := value?_eq_some ht
  have hx := UInt8.toNat_ofNat_of_lt' (show u * 4 + v / 16 < 256 by omega)
  have hy := UInt8.toNat_ofNat_of_lt' (show v % 16 * 16 + w / 4 < 256 by omega)
  have hz := UInt8.toNat_ofNat_of_lt' (show w % 4 * 64 + t < 256 by omega)
  refine ⟨_, _, _, rfl, ?_, ?_, ?_, ?_⟩
  · exact congrArg symbol (by omega)
  · exact congrArg symbol (by omega)
  · exact congrArg symbol (by omega)
  · exact congrArg symbol (by omega)

/-! ### Symbols and padding -/

/-- The characters other than padding. -/
def bare (cs : List Char) : List Char := cs.filter (· ≠ '=')

/-- How many characters fill up the last group of the text of bytes. -/
def paddingLength (bs : List UInt8) : Nat := (3 - bs.length % 3) % 3

/-- Padding at the end does not count. -/
theorem bare_append_padding (cs : List Char) (k : Nat) :
    bare (cs ++ List.replicate k '=') = bare cs := by
  simp [bare]

theorem bare_bare (cs : List Char) : bare (bare cs) = bare cs := by
  simp [bare]

theorem bare_symbol_cons {v : Nat} (hv : v < 64) (cs : List Char) :
    bare (symbol v :: cs) = symbol v :: bare cs := by
  simp [bare, symbol_ne_padding v hv]

theorem bare_padding_cons (cs : List Char) : bare ('=' :: cs) = bare cs := by
  simp [bare]

@[simp] theorem bare_nil : bare [] = [] := rfl

theorem bare_encodeChars_one (a : UInt8) :
    bare (encodeChars [a]) = [symbol (a.toNat / 4), symbol (a.toNat % 4 * 16)] := by
  have ha := a.toNat_lt
  rw [encodeChars, bare_symbol_cons (by omega), bare_symbol_cons (by omega), bare_padding_cons,
    bare_padding_cons, bare_nil]

theorem bare_encodeChars_two (a b : UInt8) :
    bare (encodeChars [a, b]) =
      [symbol (a.toNat / 4), symbol (a.toNat % 4 * 16 + b.toNat / 16),
        symbol (b.toNat % 16 * 4)] := by
  have ha := a.toNat_lt
  have hb := b.toNat_lt
  rw [encodeChars, bare_symbol_cons (by omega), bare_symbol_cons (by omega),
    bare_symbol_cons (by omega), bare_padding_cons, bare_nil]

/-- Without padding, encoding goes three bytes at a time. -/
theorem bare_encodeChars_group (a b c : UInt8) (rest : List UInt8) :
    bare (encodeChars (a :: b :: c :: rest)) =
      symbol (a.toNat / 4) :: symbol (a.toNat % 4 * 16 + b.toNat / 16) ::
        symbol (b.toNat % 16 * 4 + c.toNat / 64) :: symbol (c.toNat % 64) ::
          bare (encodeChars rest) := by
  have ha := a.toNat_lt
  have hb := b.toNat_lt
  have hc := c.toNat_lt
  rw [encodeChars, bare_symbol_cons (by omega), bare_symbol_cons (by omega),
    bare_symbol_cons (by omega), bare_symbol_cons (by omega)]

theorem paddingLength_group (a b c : UInt8) (rest : List UInt8) :
    paddingLength (a :: b :: c :: rest) = paddingLength rest := by
  simp only [paddingLength, List.length_cons]
  omega

/-- What is written are the symbols and all the padding that the last group needs. -/
theorem encodeChars_eq (bs : List UInt8) :
    encodeChars bs = bare (encodeChars bs) ++ List.replicate (paddingLength bs) '=' := by
  induction bs using encodeChars.induct with
  | case1 => rfl
  | case2 a =>
      rw [bare_encodeChars_one]
      rfl
  | case3 a b =>
      rw [bare_encodeChars_two]
      rfl
  | case4 a b c rest ih =>
      rw [bare_encodeChars_group, paddingLength_group, encodeChars]
      simp only [List.cons_append, ← ih]

/-- What holds of all symbols and of the padding character holds of all that is written. -/
theorem forall_mem_encodeChars {P : Char → Prop} (hsymbol : ∀ v < 64, P (symbol v))
    (hpadding : P '=') (bs : List UInt8) : ∀ c ∈ encodeChars bs, P c := by
  induction bs using encodeChars.induct with
  | case1 => exact fun c hc => absurd hc List.not_mem_nil
  | case2 a =>
      have ha := a.toNat_lt
      simp only [encodeChars, List.forall_mem_cons]
      exact ⟨hsymbol _ (by omega), hsymbol _ (by omega), hpadding, hpadding, by simp⟩
  | case3 a b =>
      have ha := a.toNat_lt
      have hb := b.toNat_lt
      simp only [encodeChars, List.forall_mem_cons]
      exact ⟨hsymbol _ (by omega), hsymbol _ (by omega), hsymbol _ (by omega), hpadding, by simp⟩
  | case4 a b c rest ih =>
      have ha := a.toNat_lt
      have hb := b.toNat_lt
      have hc := c.toNat_lt
      simp only [encodeChars, List.forall_mem_cons]
      exact ⟨hsymbol _ (by omega), hsymbol _ (by omega), hsymbol _ (by omega),
        hsymbol _ (by omega), ih⟩

/-! ### All groups -/

/-- Four characters without padding are a group, and the rest is read on its own. -/
theorem decodeChars?_group {a b c d : Char} (hd : d ≠ '=') (rest : List Char) :
    decodeChars? (a :: b :: c :: d :: rest) =
      (decodeFour? a b c d).bind fun front => (decodeChars? rest).bind fun back =>
        some (front ++ back) := by
  cases rest <;> simp [decodeChars?, hd]

/-- Two bytes are left where only the last of four characters is padding. -/
theorem decodeChars?_three {a b c : Char} (hc : c ≠ '=') :
    decodeChars? [a, b, c, '='] = decodeThree? a b c := by
  rw [decodeChars?]
  exact hc

theorem decodeChars?_unpadded {a b c : Char} (hc : c ≠ '=') :
    decodeChars? [a, b, c] = decodeThree? a b c := by
  rw [decodeChars?]
  exact hc

/-- The characters that are read are the symbols of the bytes, and padding. -/
theorem eq_of_decodeChars? {cs : List Char} {bs : List UInt8} (h : decodeChars? cs = some bs) :
    ∃ k ≤ paddingLength bs, cs = bare (encodeChars bs) ++ List.replicate k '=' := by
  fun_induction decodeChars? cs generalizing bs with
  | case1 =>
      cases h
      exact ⟨0, Nat.le_refl 0, rfl⟩
  | case2 a b =>
      obtain ⟨x, rfl, rfl, rfl⟩ := decodeTwo?_eq_some h
      exact ⟨0, Nat.zero_le _, by rw [bare_encodeChars_one]; rfl⟩
  | case3 a b =>
      obtain ⟨x, rfl, rfl, rfl⟩ := decodeTwo?_eq_some h
      exact ⟨1, Nat.le_succ 1, by rw [bare_encodeChars_one]; rfl⟩
  | case4 a b =>
      obtain ⟨x, rfl, rfl, rfl⟩ := decodeTwo?_eq_some h
      exact ⟨2, Nat.le_refl 2, by rw [bare_encodeChars_one]; rfl⟩
  | case5 a b c hc =>
      obtain ⟨x, y, rfl, rfl, rfl, rfl⟩ := decodeThree?_eq_some h
      exact ⟨0, Nat.zero_le _, by rw [bare_encodeChars_two]; rfl⟩
  | case6 a b c hc =>
      obtain ⟨x, y, rfl, rfl, rfl, rfl⟩ := decodeThree?_eq_some h
      exact ⟨1, Nat.le_refl 1, by rw [bare_encodeChars_two]; rfl⟩
  | case7 a b c d rest hpadded hpadded' ih =>
      simp only [Option.bind_eq_bind, Option.bind_eq_some_iff, Option.some.injEq] at h
      obtain ⟨front, hfront, back, hback, rfl⟩ := h
      obtain ⟨x, y, z, rfl, rfl, rfl, rfl, rfl⟩ := decodeFour?_eq_some hfront
      obtain ⟨k, hk, hrest⟩ := ih hback
      refine ⟨k, (paddingLength_group x y z back).symm ▸ hk, ?_⟩
      show _ = bare (encodeChars (x :: y :: z :: back)) ++ _
      rw [bare_encodeChars_group, hrest]
      rfl
  | case8 a => cases h

/-- The symbols of bytes are read as the bytes, with any part of their padding. -/
theorem decodeChars?_bare {bs : List UInt8} {k : Nat} (hk : k ≤ paddingLength bs) :
    decodeChars? (bare (encodeChars bs) ++ List.replicate k '=') = some bs := by
  induction bs using encodeChars.induct generalizing k with
  | case1 =>
      obtain rfl : k = 0 := Nat.le_zero.1 hk
      rfl
  | case2 a =>
      have hk2 : k ≤ 2 := hk
      rw [bare_encodeChars_one]
      rcases k with _ | _ | _ | k
      · exact decodeTwo?_symbols a
      · exact decodeTwo?_symbols a
      · exact decodeTwo?_symbols a
      · omega
  | case3 a b =>
      have hk1 : k ≤ 1 := hk
      have hsymbol : symbol (b.toNat % 16 * 4) ≠ '=' := symbol_ne_padding _ (by omega)
      rw [bare_encodeChars_two]
      rcases k with _ | _ | k
      · exact (decodeChars?_unpadded hsymbol).trans (decodeThree?_symbols a b)
      · exact (decodeChars?_three hsymbol).trans (decodeThree?_symbols a b)
      · omega
  | case4 a b c rest ih =>
      have hsymbol : symbol (c.toNat % 64) ≠ '=' := symbol_ne_padding _ (by omega)
      rw [paddingLength_group] at hk
      rw [bare_encodeChars_group]
      simp only [List.cons_append, decodeChars?_group hsymbol, decodeFour?_symbols, ih hk]
      rfl

/-! ### Strings -/

/-- A text writes bytes if it has their symbols and not too much padding behind them. -/
theorem decode?_eq_some_iff {s : String} {bs : List UInt8} :
    decode? s = some bs ↔
      ∃ k ≤ paddingLength bs, s.toList = bare (encode bs).toList ++ List.replicate k '=' := by
  rw [decode?, encode, String.toList_ofList]
  constructor
  · exact eq_of_decodeChars?
  · rintro ⟨k, hk, hs⟩
    rw [hs]
    exact decodeChars?_bare hk

/-- The text of bytes writes these bytes. -/
theorem decode?_encode (bs : List UInt8) : decode? (encode bs) = some bs := by
  rw [decode?, encode, String.toList_ofList, encodeChars_eq]
  exact decodeChars?_bare (Nat.le_refl _)

/-- A text that decodes is, up to padding, the encoding of its bytes. -/
theorem bare_eq_of_decode? {s : String} {bs : List UInt8} (h : decode? s = some bs) :
    bare s.toList = bare (encode bs).toList := by
  obtain ⟨k, -, hs⟩ := decode?_eq_some_iff.1 h
  rw [hs, bare_append_padding, bare_bare]

end PlonkKzg.Base64
