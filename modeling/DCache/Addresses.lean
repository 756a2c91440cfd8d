import DCache.EndPoint

/-! Which texts are read as addresses. A port is a loop over digits in both directions; when it is
read, the number is cut to 32 bits and then to 16. -/
namespace DCache

/-- The text is a dotted quad, a colon and a decimal number that is a port. -/
def Denotes (s : Str) (ip : InAddr) (port : ℕ) : Prop :=
  ∃ quad number, s = quad ++ colon :: number ∧ inetPton quad = some ip ∧
    (∀ ch ∈ number, isDigit ch = true) ∧ digitsValue 0 number = port ∧ 1 ≤ port ∧ port ≤ 65535

/-- An address is read from the texts that denote it, and the result is left alone for all others. -/
structure ReadsAddresses (s : Str) : Prop where
  denoted : ∀ ip port, Denotes s ip port → ∀ res, str2sockAddr res s = ⟨afInet, htons port, ip⟩
  other : (¬ ∃ ip port, Denotes s ip port) → ∀ res, str2sockAddr res s = res

/-- What `str2sock_addr` takes for the address, and for the port. -/
def ipText (s : Str) : Str := s.takeWhile fun ch => ch ≠ colon

def portText (s : Str) : Str := (s.dropWhile fun ch => ch ≠ colon).drop 1

section Numbers
variable {n : ℕ} {s : Str}

theorem digitsValue_append (h : ∀ ch ∈ s, isDigit ch = true) (n : ℕ) (t : Str) :
    digitsValue n (s ++ t) = digitsValue (digitsValue n s) t := by
  induction s generalizing n with
  | nil => rfl
  | cons ch s ih =>
    obtain ⟨hch, hs⟩ := List.forall_mem_cons.mp h
    rw [List.cons_append, digitsValue, digitsValue, if_pos hch, if_pos hch, ih hs]

theorem le_digitsValue (n : ℕ) (s : Str) : n ≤ digitsValue n s := by
  induction s generalizing n with
  | nil => exact le_rfl
  | cons ch s ih =>
    rw [digitsValue]
    split_ifs
    · have := ih (n * 10 + (ch.val - 48))
      omega
    · exact le_rfl

theorem int32_step (a : ℤ) (d : ℤ) : int32 (int32 a * 10 + d) = int32 (a * 10 + d) := by
  unfold int32
  rw [← Int.bmod_add_bmod (x := Int.bmod a (2 ^ 32) * 10), Int.bmod_mul_bmod, Int.bmod_add_bmod]

/-- A text of digits is read modulo 2^32. -/
theorem str2portLoop_digits (h : ∀ ch ∈ s, isDigit ch = true) (n : ℕ) :
    str2portLoop (int32 n) s = int32 (digitsValue n s) := by
  induction s generalizing n with
  | nil => rfl
  | cons ch s ih =>
    obtain ⟨hch, hs⟩ := List.forall_mem_cons.mp h
    have hdigit : 48 ≤ ch.val := by
      simp only [isDigit, Bool.and_eq_true, decide_eq_true_eq] at hch
      exact hch.1
    have hcast : (n : ℤ) * 10 + (ch.val - 48 : ℤ) = ((n * 10 + (ch.val - 48) : ℕ) : ℤ) := by
      push_cast [hdigit]
      rfl
    rw [str2portLoop, if_pos hch, int32_step, hcast, ih hs, digitsValue, if_pos hch]

theorem str2port_digits (h : ∀ ch ∈ s, isDigit ch = true) :
    str2port s = int32 (digitsValue 0 s) := str2portLoop_digits h 0

/-- Any other text is refused. -/
theorem str2port_other (h : ¬ ∀ ch ∈ s, isDigit ch = true) : str2port s = -1 := by
  have hloop : ∀ p, str2portLoop p s = -1 := by
    induction s with
    | nil => exact absurd (fun _ hch => absurd hch List.not_mem_nil) h
    | cons ch s ih =>
      intro p
      rw [str2portLoop]
      split_ifs with hch
      · apply ih
        intro hs
        exact h (List.forall_mem_cons.mpr ⟨hch, hs⟩)
      · rfl
  exact hloop 0

theorem int32_eq_zero_iff {a : ℤ} : int32 a = 0 ↔ (2 ^ 32 : ℤ) ∣ a := by
  unfold int32 Int.bmod
  dsimp only
  split_ifs <;> omega

theorem str2port_eq_zero_iff : str2port s = 0 ↔
    (∀ ch ∈ s, isDigit ch = true) ∧ 2 ^ 32 ∣ digitsValue 0 s := by
  by_cases h : ∀ ch ∈ s, isDigit ch = true
  · rw [str2port_digits h, int32_eq_zero_iff, and_iff_right h]
    exact_mod_cast Iff.rfl
  · rw [str2port_other h]
    exact iff_of_false (by decide) fun hc => h hc.1

end Numbers

section Quads
variable {quad : Str} {ip : InAddr}

theorem decimal_of_octet? {s : Str} {b : Byte} (h : octet? s = some b) : s = decimal b := by
  unfold octet? at h
  split_ifs at h with hs
  rw [← Option.some.inj h]
  exact hs.2.symm

/-- A dotted quad is the text of its address. -/
theorem eq_inetNtoa (h : inetPton quad = some ip) : quad = inetNtoa ip := by
  unfold inetPton at h
  split at h
  · next s₀ s₁ s₂ s₃ hs =>
    simp only [Option.bind_eq_bind] at h
    obtain ⟨b₀, h₀, h⟩ := Option.bind_eq_some_iff.mp h
    obtain ⟨b₁, h₁, h⟩ := Option.bind_eq_some_iff.mp h
    obtain ⟨b₂, h₂, h⟩ := Option.bind_eq_some_iff.mp h
    obtain ⟨b₃, h₃, h⟩ := Option.bind_eq_some_iff.mp h
    rw [← Option.some.inj h, inetNtoa, ← decimal_of_octet? h₀, ← decimal_of_octet? h₁,
      ← decimal_of_octet? h₂, ← decimal_of_octet? h₃, ← hs, List.intercalate_splitOn]
  · cases h

theorem notMem_quad {ch : Byte} (h : inetPton quad = some ip) (hd : isDigit ch = false)
    (hdot : ch ≠ dot) : ch ∉ quad := by
  rw [eq_inetNtoa h]
  intro hm
  rcases mem_inetNtoa ip hm with hm | hm
  · rw [hm] at hd
    cases hd
  · exact hdot hm

end Quads
section Reading
variable {s : Str} {ip : InAddr} {port : ℕ}

/-- A text that denotes an address is cut where it should be. -/
theorem Denotes.parts (h : Denotes s ip port) : inetPton (ipText s) = some ip ∧ 0 ∉ ipText s ∧
    (∀ ch ∈ portText s, isDigit ch = true) ∧ digitsValue 0 (portText s) = port ∧
      1 ≤ port ∧ port ≤ 65535 := by
  obtain ⟨quad, number, rfl, hquad, hdigits, hvalue, hrange⟩ := h
  have hcolon : colon ∉ quad := notMem_quad hquad (by decide) (by decide)
  have hip : ipText (quad ++ colon :: number) = quad := Lib.takeWhile_sep hcolon number
  have hport : portText (quad ++ colon :: number) = number := by
    have hall : ∀ ch ∈ quad, decide (ch ≠ colon) = true := by
      intro ch hch
      rw [decide_eq_true_eq]
      rintro rfl
      exact hcolon hch
    rw [portText, List.dropWhile_append_of_pos hall]
    simp
  rw [hip, hport]
  exact ⟨hquad, notMem_quad hquad (by decide) (by decide), hdigits, hvalue, hrange⟩

theorem str2sockAddr_of_denotes (h : Denotes s ip port) (res : SockAddrIn) :
    str2sockAddr res s = ⟨afInet, htons port, ip⟩ := by
  obtain ⟨hquad, hnul, hdigits, hvalue, hlo, hhi⟩ := h.parts
  have hport : str2port (portText s) = port := by
    rw [str2port_digits hdigits, hvalue, int32_of_lt] <;> omega
  have hne : s ≠ [] := by
    rintro rfl
    rw [show portText [] = [] from rfl] at hvalue
    have : 0 = port := hvalue
    omega
  have hzero : (port : ℤ) ≠ 0 := by omega
  rw [portText] at hport
  rw [ipText] at hquad hnul
  unfold str2sockAddr
  simp only [if_neg hne, hport, if_pos hzero, cstr_eq_self.mpr hnul, hquad, Option.getD_some]

/-- What is read leaves the result alone only where the number comes out as zero. -/
theorem str2sockAddr_kept_iff :
    (∀ res, str2sockAddr res s = res) ↔ s = [] ∨ str2port (portText s) = 0 := by
  constructor
  · intro h
    by_contra hc
    obtain ⟨hne, hport⟩ := not_or.mp hc
    have hres := h ⟨0, 0, .any⟩
    unfold str2sockAddr at hres
    rw [portText] at hport
    simp only [if_neg hne, ne_eq, hport, not_false_eq_true, if_true] at hres
    have hfamily : afInet = 0 := congrArg SockAddrIn.sinFamily hres
    exact absurd hfamily (by decide)
  · rintro (rfl | hport) res
    · rfl
    · unfold str2sockAddr
      rw [portText] at hport
      by_cases hne : s = []
      · rw [if_pos hne]
      · simp only [if_neg hne, hport, ne_eq, not_true_eq_false, if_false]

end Reading

/-- Exactly the addresses are read, apart from texts whose number comes out as zero. -/
theorem readsAddresses_iff (s : Str) : ReadsAddresses s ↔ (∃ ip port, Denotes s ip port) ∨
    s = [] ∨ (∀ ch ∈ portText s, isDigit ch = true) ∧ 2 ^ 32 ∣ digitsValue 0 (portText s) := by
  rw [← str2port_eq_zero_iff, ← str2sockAddr_kept_iff]
  by_cases h : ∃ ip port, Denotes s ip port
  · apply iff_of_true _ (Or.inl h)
    exact ⟨fun ip port hd => str2sockAddr_of_denotes hd, fun hn => absurd h hn⟩
  · rw [or_iff_right h]
    constructor
    · intro hr
      exact hr.other h
    · intro hk
      exact ⟨fun ip port hd => absurd ⟨ip, port, hd⟩ h, fun _ => hk⟩

/-- A port that is no number, one that is too large, and an address that is no quad. -/
theorem not_readsAddresses : ¬ ReadsAddresses (lit "10.0.0.1:x") ∧
    ¬ ReadsAddresses (lit "10.0.0.1:71536") ∧ ¬ ReadsAddresses (lit "localhost:6000") := by
  have hset : ∀ s, str2sockAddr ⟨0, 0, .any⟩ s ≠ ⟨0, 0, .any⟩ →
      (¬ ∃ ip port, Denotes s ip port) → ¬ ReadsAddresses s := by
    intro s hs hn h
    exact hs (h.other hn _)
  refine ⟨hset _ (by decide +kernel) ?_, hset _ (by decide +kernel) ?_,
    hset _ (by decide +kernel) ?_⟩
  · rintro ⟨ip, port, h⟩
    exact absurd h.parts.2.2.1 (by decide +kernel)
  · rintro ⟨ip, port, h⟩
    have hvalue : digitsValue 0 (portText (lit "10.0.0.1:71536")) = 71536 := by decide +kernel
    have hport := h.parts.2.2.2
    omega
  · rintro ⟨ip, port, h⟩
    have hquad : inetPton (ipText (lit "localhost:6000")) = none := by decide +kernel
    cases hquad.symm.trans h.parts.1

section RoundTrip

theorem isDigit_of_mem_digitChars {n : ℕ} {ch : Byte} (h : ch ∈ digitChars n) :
    isDigit ch = true := by
  by_cases hn : n = 0
  · subst hn
    simp [digitChars] at h
  · apply isDigit_of_mem_decimal (n := n)
    rw [decimal, if_neg hn]
    exact h

/-- The number that is read so far, and the next one, are not larger than the whole. -/
theorem str2port_step {n : ℕ} (hn : n < 2 ^ 31) {pre rest : Str} {ch : Byte}
    (h : digitChars n = pre ++ ch :: rest) : isDigit ch = true ∧
      0 ≤ str2port pre * 10 + (ch.val - 48) ∧ str2port pre * 10 + (ch.val - 48) < 2 ^ 31 := by
  have hdigit : ∀ b ∈ pre ++ ch :: rest, isDigit b = true := by
    rw [← h]
    exact fun b hb => isDigit_of_mem_digitChars hb
  have hpre : ∀ b ∈ pre, isDigit b = true := fun b hb => hdigit b (List.mem_append_left _ hb)
  have hch : isDigit ch = true := hdigit ch (List.mem_append_right _ List.mem_cons_self)
  have hvalue : digitsValue (digitsValue 0 pre * 10 + (ch.val - 48)) rest = n := by
    have hn' := digitsValue_digitChars n []
    have hstep : digitsValue (digitsValue 0 pre) (ch :: rest) =
        digitsValue (digitsValue 0 pre * 10 + (ch.val - 48)) rest := if_pos hch
    rw [List.append_nil, h, digitsValue_append hpre, hstep] at hn'
    exact hn'
  have hle := le_digitsValue (digitsValue 0 pre * 10 + (ch.val - 48)) rest
  have hport : str2port pre = digitsValue 0 pre := by
    rw [str2port_digits hpre, int32_of_lt] <;> omega
  simp only [isDigit, Bool.and_eq_true, decide_eq_true_eq] at hch
  rw [hport]
  refine ⟨by simpa [isDigit] using hch, ?_, ?_⟩ <;> omega

end RoundTrip

/-- An address is read back from its text, and a number from its digits without an overflow. -/
theorem address_round_trip :
    (∀ (ip : InAddr) (port family : ℕ) (res : SockAddrIn), 1 ≤ port → port ≤ 65535 →
      str2sockAddr res (sockAddr2str ⟨family, htons port, ip⟩) = ⟨afInet, htons port, ip⟩) ∧
    ∀ p : ℤ, 0 ≤ p → p < 2 ^ 31 → str2port (port2str p) = p ∧
      ∀ pre ch rest, port2str p = pre ++ ch :: rest → isDigit ch = true ∧
        0 ≤ str2port pre * 10 + (ch.val - 48) ∧ str2port pre * 10 + (ch.val - 48) < 2 ^ 31 := by
  constructor
  · intro ip port family res hlo hhi
    have hne : htons port ≠ 0 := by
      intro hz
      have hport := ntohs_htons (p := port) (by omega)
      rw [hz] at hport
      have : ntohs 0 = 0 := rfl
      omega
    exact str2sockAddr_sockAddr2str ⟨afInet, htons port, ip⟩ res rfl hne
  · intro p hlo hhi
    obtain ⟨n, rfl⟩ := Int.eq_ofNat_of_zero_le hlo
    have hn : n < 2 ^ 31 := by omega
    rw [port2str_eq]
    exact ⟨str2port_digitChars n hn, fun pre ch rest h => str2port_step hn h⟩

theorem address_round_trip_bounds :
    str2sockAddr ⟨0, 0, .any⟩ (sockAddr2str ⟨0, htons 6000, ⟨10, 0, 0, 1⟩⟩) =
      ⟨afInet, htons 6000, ⟨10, 0, 0, 1⟩⟩ ∧
    str2port (port2str 2147483647) = 2147483647 :=
  ⟨address_round_trip.1 ⟨10, 0, 0, 1⟩ 6000 0 ⟨0, 0, .any⟩ (by decide) (by decide),
    (address_round_trip.2 2147483647 (by decide) (by decide)).1⟩

end DCache
