import JsonWalk.Text.Utf8

/-!
# Encoding and decoding of characters

Decoding undoes encoding, and only what encodes characters decodes. An encoded character beyond
ASCII has no ASCII byte, and its first byte tells it from the bytes behind.
-/

namespace JsonWalk.Utf8

variable {c : Char} {bytes rest : List UInt8}

theorem toNat_lt (c : Char) : c.toNat < 0x110000 := by
  have h : c.toNat.isValidChar := c.valid
  simp only [Nat.isValidChar] at h
  omega

theorem mod_lt (n : Nat) : n % 64 < 64 := Nat.mod_lt _ (by decide)

theorem encodeChar_eq (c : Char) : String.utf8EncodeChar c =
    if c.toNat ≤ 0x7F then [UInt8.ofNat c.toNat]
    else if c.toNat ≤ 0x7FF then
      [UInt8.ofNat (c.toNat / 64 % 32 + 0xC0), UInt8.ofNat (c.toNat % 64 + 0x80)]
    else if c.toNat ≤ 0xFFFF then
      [UInt8.ofNat (c.toNat / 4096 % 16 + 0xE0), UInt8.ofNat (c.toNat / 64 % 64 + 0x80),
        UInt8.ofNat (c.toNat % 64 + 0x80)]
    else
      [UInt8.ofNat (c.toNat / 262144 % 8 + 0xF0), UInt8.ofNat (c.toNat / 4096 % 64 + 0x80),
        UInt8.ofNat (c.toNat / 64 % 64 + 0x80), UInt8.ofNat (c.toNat % 64 + 0x80)] := rfl

theorem follow_succ {count code n : Nat} (h : n < 64) :
    follow (count + 1) code (UInt8.ofNat (n + 0x80) :: rest) =
      follow count (code * 64 + n) rest := by
  have hn : (UInt8.ofNat (n + 0x80)).toNat = n + 0x80 := by
    rw [UInt8.toNat_ofNat']
    omega
  rw [follow, if_pos]
  · rw [hn, Nat.add_sub_cancel]
  · rw [UInt8.le_iff_toNat_le, UInt8.lt_iff_toNat_lt, hn]
    simp
    omega

theorem lead?_ofNat {n : Nat} (h : n < 256) : lead? (UInt8.ofNat n) =
    if n < 0x80 then some (0, n, 0)
    else if n < 0xC0 then none
    else if n < 0xE0 then some (1, n - 0xC0, 0x80)
    else if n < 0xF0 then some (2, n - 0xE0, 0x800)
    else some (3, n - 0xF0, 0x10000) := by
  have hn : (UInt8.ofNat n).toNat = n := by
    rw [UInt8.toNat_ofNat']
    omega
  simp only [lead?, UInt8.lt_iff_toNat_lt, hn]
  rfl

theorem char?_toNat {least : Nat} (h : least ≤ c.toNat) : char? least c.toNat = some c := by
  have hc : c.toNat.isValidChar := c.valid
  rw [char?, if_pos ⟨h, hc⟩, Char.ofNat_toNat]

theorem decodeChar_encode : decodeChar (String.utf8EncodeChar c ++ rest) = some (c, rest) := by
  have hc := toNat_lt c
  have hchar {least code : Nat} (hl : least ≤ c.toNat) (h : code = c.toNat) :
      (some (code, rest)).bind (fun p => (char? least p.1).bind fun c => pure (c, p.2)) =
        some (c, rest) := by
    subst h
    rw [Option.bind_some, char?_toNat hl]
    rfl
  rw [encodeChar_eq]
  split
  · rw [List.singleton_append, decodeChar, lead?_ofNat (by omega), if_pos (by omega)]
    exact hchar (Nat.zero_le _) rfl
  split
  · rw [List.cons_append, decodeChar, lead?_ofNat (by omega), if_neg (by omega),
      if_neg (by omega), if_pos (by omega)]
    simp only [Option.bind_eq_bind, Option.bind_some, List.cons_append, List.nil_append]
    rw [follow_succ (mod_lt _), follow]
    exact hchar (by omega) (by omega)
  split
  · rw [List.cons_append, decodeChar, lead?_ofNat (by omega), if_neg (by omega),
      if_neg (by omega), if_neg (by omega), if_pos (by omega)]
    simp only [Option.bind_eq_bind, Option.bind_some, List.cons_append, List.nil_append]
    rw [follow_succ (mod_lt _), follow_succ (mod_lt _), follow]
    exact hchar (by omega) (by omega)
  · rw [List.cons_append, decodeChar, lead?_ofNat (by omega), if_neg (by omega),
      if_neg (by omega), if_neg (by omega), if_neg (by omega)]
    simp only [Option.bind_eq_bind, Option.bind_some, List.cons_append, List.nil_append]
    rw [follow_succ (mod_lt _), follow_succ (mod_lt _), follow_succ (mod_lt _), follow]
    exact hchar (by omega) (by omega)

theorem follow_succ_eq_some {count code code' : Nat}
    (h : follow (count + 1) code bytes = some (code', rest)) :
    ∃ n bytes', n < 64 ∧ bytes = UInt8.ofNat (n + 0x80) :: bytes' ∧
      follow count (code * 64 + n) bytes' = some (code', rest) := by
  cases bytes with
  | nil => cases h
  | cons b bytes =>
    rw [follow] at h
    split at h
    · next hb =>
      rw [UInt8.le_iff_toNat_le, UInt8.lt_iff_toNat_lt] at hb
      obtain ⟨hle, hlt⟩ : 0x80 ≤ b.toNat ∧ b.toNat < 0xC0 := hb
      refine ⟨b.toNat - 0x80, bytes, by omega, ?_, h⟩
      rw [Nat.sub_add_cancel hle, UInt8.ofNat_toNat]
    · cases h

theorem char?_eq_some {least code : Nat} (h : char? least code = some c) :
    least ≤ code ∧ c.toNat = code := by
  rw [char?] at h
  split at h
  · next hc =>
    cases h
    refine ⟨hc.1, ?_⟩
    rw [Char.ofNat, dif_pos hc.2]
    rfl
  · cases h

theorem lead?_eq_some {a : UInt8} {count code least : Nat}
    (h : lead? a = some (count, code, least)) :
    (count = 0 ∧ code < 0x80 ∧ least = 0 ∧ a = UInt8.ofNat code) ∨
    (count = 1 ∧ code < 32 ∧ least = 0x80 ∧ a = UInt8.ofNat (code + 0xC0)) ∨
    (count = 2 ∧ code < 16 ∧ least = 0x800 ∧ a = UInt8.ofNat (code + 0xE0)) ∨
    (count = 3 ∧ code < 16 ∧ least = 0x10000 ∧ a = UInt8.ofNat (code + 0xF0)) := by
  have ha := a.toNat_lt
  have hofNat {n k : Nat} (hk : a.toNat - k = n) (hle : k ≤ a.toNat) : a = UInt8.ofNat (n + k) := by
    rw [← hk, Nat.sub_add_cancel hle, UInt8.ofNat_toNat]
  have hlead := lead?_ofNat ha
  rw [UInt8.ofNat_toNat, h] at hlead
  split at hlead
  · rw [Option.some.injEq, Prod.mk.injEq, Prod.mk.injEq] at hlead
    obtain ⟨hcount, hcode, hleast⟩ := hlead
    exact .inl ⟨hcount, by omega, hleast, hofNat hcode.symm (Nat.zero_le _)⟩
  split at hlead
  · cases hlead
  split at hlead
  · rw [Option.some.injEq, Prod.mk.injEq, Prod.mk.injEq] at hlead
    obtain ⟨hcount, hcode, hleast⟩ := hlead
    exact .inr (.inl ⟨hcount, by omega, hleast, hofNat hcode.symm (by omega)⟩)
  split at hlead
  · rw [Option.some.injEq, Prod.mk.injEq, Prod.mk.injEq] at hlead
    obtain ⟨hcount, hcode, hleast⟩ := hlead
    exact .inr (.inr (.inl ⟨hcount, by omega, hleast, hofNat hcode.symm (by omega)⟩))
  · rw [Option.some.injEq, Prod.mk.injEq, Prod.mk.injEq] at hlead
    obtain ⟨hcount, hcode, hleast⟩ := hlead
    exact .inr (.inr (.inr ⟨hcount, by omega, hleast, hofNat hcode.symm (by omega)⟩))

theorem eq_encode_of_decodeChar (h : decodeChar bytes = some (c, rest)) :
    bytes = String.utf8EncodeChar c ++ rest := by
  cases bytes with
  | nil => cases h
  | cons a bytes =>
    simp only [decodeChar, bind, Option.bind_eq_some_iff] at h
    obtain ⟨⟨count, code, least⟩, hlead, ⟨code', rest'⟩, hfollow, c', hchar, heq⟩ := h
    cases heq
    obtain ⟨hleast, hcode⟩ := char?_eq_some hchar
    dsimp only at hleast hcode hfollow ⊢
    have hc := toNat_lt c
    rw [encodeChar_eq]
    obtain ⟨rfl, hlt, rfl, rfl⟩ | ⟨rfl, hlt, rfl, rfl⟩ | ⟨rfl, hlt, rfl, rfl⟩ |
      ⟨rfl, hlt, rfl, rfl⟩ := lead?_eq_some hlead
    · cases hfollow
      rw [if_pos (by omega), hcode]
      rfl
    · obtain ⟨n, bytes₁, hn, rfl, h₁⟩ := follow_succ_eq_some hfollow
      cases h₁
      rw [if_neg (by omega), if_pos (by omega)]
      simp only [List.cons_append, List.nil_append, List.cons.injEq, and_true]
      exact ⟨congrArg _ (by omega), congrArg _ (by omega)⟩
    · obtain ⟨n, bytes₁, hn, rfl, h₁⟩ := follow_succ_eq_some hfollow
      obtain ⟨m, bytes₂, hm, rfl, h₂⟩ := follow_succ_eq_some h₁
      cases h₂
      rw [if_neg (by omega), if_neg (by omega), if_pos (by omega)]
      simp only [List.cons_append, List.nil_append, List.cons.injEq, and_true]
      exact ⟨congrArg _ (by omega), congrArg _ (by omega), congrArg _ (by omega)⟩
    · obtain ⟨n, bytes₁, hn, rfl, h₁⟩ := follow_succ_eq_some hfollow
      obtain ⟨m, bytes₂, hm, rfl, h₂⟩ := follow_succ_eq_some h₁
      obtain ⟨k, bytes₃, hk, rfl, h₃⟩ := follow_succ_eq_some h₂
      cases h₃
      rw [if_neg (by omega), if_neg (by omega), if_neg (by omega)]
      simp only [List.cons_append, List.nil_append, List.cons.injEq, and_true]
      exact ⟨congrArg _ (by omega), congrArg _ (by omega), congrArg _ (by omega),
        congrArg _ (by omega)⟩

/-! ### Texts -/

variable {cs ds : List Char}

@[simp] theorem encode_nil : encode [] = [] := rfl

@[simp] theorem encode_cons : encode (c :: cs) = String.utf8EncodeChar c ++ encode cs := rfl

@[simp] theorem encode_append : encode (cs ++ ds) = encode cs ++ encode ds :=
  List.flatMap_append

theorem decodeOnto_encode (done cs : List Char) :
    decodeOnto done (encode cs) = (done.reverse ++ cs, []) := by
  induction cs generalizing done with
  | nil =>
    rw [encode_nil, decodeOnto, List.append_nil]
    rfl
  | cons c cs ih =>
    rw [encode_cons, decodeOnto]
    split
    · next h => cases decodeChar_encode.symm.trans h
    · next h =>
      cases decodeChar_encode.symm.trans h
      rw [ih, List.reverse_cons, List.append_assoc, List.singleton_append]

theorem encode_decodeOnto {done : List Char} (h : decodeOnto done bytes = (cs, rest)) :
    encode cs ++ rest = encode done.reverse ++ bytes := by
  fun_induction decodeOnto done bytes with
  | case1 =>
    cases h
    rfl
  | case2 done bytes c rest' hc ih =>
    rw [ih h, eq_encode_of_decodeChar hc]
    simp

theorem split_eq_iff : split bytes = (cs, []) ↔ bytes = encode cs := by
  constructor
  · intro h
    simpa using (encode_decodeOnto h).symm
  · rintro rfl
    exact decodeOnto_encode [] cs

theorem decode?_eq_some_iff {s : String} : decode? bytes = some s ↔ bytes = encode s.toList := by
  rw [decode?]
  constructor
  · intro h
    split at h
    · next hs =>
      cases h
      rw [split_eq_iff.1 hs, String.toList_ofList]
    · cases h
  · intro h
    rw [split_eq_iff.2 h]
    simp

/-! ### Bytes of a character -/

/-- The bytes of a character behind the first. -/
def IsTail (b : UInt8) : Prop := 0x80 ≤ b ∧ b < 0xC0

theorem encodeChar_of_ascii (h : c.toNat < 0x80) :
    String.utf8EncodeChar c = [UInt8.ofNat c.toNat] := by
  rw [encodeChar_eq, if_pos (by omega)]

theorem isTail_ofNat {n : Nat} (h : n < 64) : IsTail (UInt8.ofNat (n + 0x80)) := by
  rw [IsTail, UInt8.le_iff_toNat_le, UInt8.lt_iff_toNat_lt, UInt8.toNat_ofNat']
  simp
  omega

theorem le_ofNat {n : Nat} (h : n < 64) : 0xC0 ≤ UInt8.ofNat (n + 0xC0) := by
  rw [UInt8.le_iff_toNat_le, UInt8.toNat_ofNat']
  simp
  omega

/-- A character beyond ASCII begins with a byte that no other byte of it can be. -/
theorem encodeChar_of_not_ascii (h : 0x80 ≤ c.toNat) :
    ∃ a tail, String.utf8EncodeChar c = a :: tail ∧ 0xC0 ≤ a ∧ ∀ b ∈ tail, IsTail b := by
  rw [encodeChar_eq, if_neg (by omega)]
  split
  · refine ⟨_, _, rfl, le_ofNat (by omega), ?_⟩
    simp only [List.forall_mem_cons]
    exact ⟨isTail_ofNat (mod_lt _), nofun⟩
  split
  · refine ⟨_, _, rfl, le_ofNat (n := c.toNat / 4096 % 16 + 0x20) (by omega), ?_⟩
    simp only [List.forall_mem_cons]
    exact ⟨isTail_ofNat (mod_lt _), isTail_ofNat (mod_lt _), nofun⟩
  · refine ⟨_, _, rfl, le_ofNat (n := c.toNat / 262144 % 8 + 0x30) (by omega), ?_⟩
    simp only [List.forall_mem_cons]
    exact ⟨isTail_ofNat (mod_lt _), isTail_ofNat (mod_lt _), isTail_ofNat (mod_lt _), nofun⟩

end JsonWalk.Utf8
