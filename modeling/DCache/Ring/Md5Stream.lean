import Mathlib.Algebra.Group.Basic
import DCache.Lib.Blocks
import DCache.Ring.Md5

/-! That `md5.c` takes a message in any pieces as it takes the padded message block by block. -/
namespace DCache.Ring.Md5
open DCache.Lib
variable {X : ℕ → Word} {r : Registers} {round i : ℕ}

theorem word_eq (order : ByteOrder) (data : List Byte) : word order data = word .little data := by
  funext k
  cases order with
  | little => rfl
  | big =>
    simp only [word]
    generalize data.getD (4 * k) 0 = b₀
    generalize data.getD (4 * k + 1) 0 = b₁
    generalize data.getD (4 * k + 2) 0 = b₂
    generalize data.getD (4 * k + 3) 0 = b₃
    apply BitVec.eq_of_toNat_eq
    simp only [BitVec.toNat_add, BitVec.toNat_shiftLeft, BitVec.toNat_ofNat, Nat.shiftLeft_eq]
    omega

section Loop

def roundFunction : ℕ → Word → Word → Word → Word
  | 0 => F
  | 1 => G
  | 2 => H
  | _ => I

/-- The words of the block in the order of the round. -/
def wordIndex : ℕ → ℕ → ℕ
  | 0, i => i
  | 1, i => (5 * i + 1) % 16
  | 2, i => (3 * i + 5) % 16
  | _, i => 7 * i % 16

def rotation : ℕ → ℕ → ℕ
  | 0, i => [7, 12, 17, 22].getD (i % 4) 0
  | 1, i => [5, 9, 14, 20].getD (i % 4) 0
  | 2, i => [4, 11, 16, 23].getD (i % 4) 0
  | _, i => [6, 10, 15, 21].getD (i % 4) 0

/-- One operation as a loop has it: the values move from name to name. -/
def turn (X : ℕ → Word) (round : ℕ) (r : Registers) (i : ℕ) : Registers :=
  let t := r.a + roundFunction round r.b r.c r.d + X (wordIndex round i) + T.getD (16 * round + i) 0
  ⟨r.d, rotateLeft t (rotation round i) + r.b, r.b, r.c⟩

/-- `md5_process` as two loops. -/
def compress (abcd : Registers) (data : List Byte) : Registers :=
  let X := word .little data
  let r := (List.range 4).foldl (fun r round => (List.range 16).foldl (turn X round) r) abcd
  ⟨abcd.a + r.a, abcd.b + r.b, abcd.c + r.c, abcd.d + r.d⟩

/-- The operation of the source, where the names move from value to value. -/
def operation (round i : ℕ) : Operation :=
  let k := wordIndex round i
  let s := rotation round i
  let j := 16 * round + i + 1
  match i % 4 with
  | 0 => ⟨.a, .b, .c, .d, k, s, j⟩
  | 1 => ⟨.d, .a, .b, .c, k, s, j⟩
  | 2 => ⟨.c, .d, .a, .b, k, s, j⟩
  | _ => ⟨.b, .c, .d, .a, k, s, j⟩

def turned (i : ℕ) (r : Registers) : Registers :=
  match i % 4 with
  | 0 => r
  | 1 => ⟨r.d, r.a, r.b, r.c⟩
  | 2 => ⟨r.c, r.d, r.a, r.b⟩
  | _ => ⟨r.b, r.c, r.d, r.a⟩

theorem turned_set : turned (i + 1) (set (roundFunction round) X r (operation round i)) =
    turn X round (turned i r) i := by
  have hmod : i % 4 = 0 ∨ i % 4 = 1 ∨ i % 4 = 2 ∨ i % 4 = 3 := by omega
  rcases hmod with h | h | h | h
  all_goals
    have hnext := Nat.add_mod i 1 4
    rw [h] at hnext
    simp [turned, operation, turn, set, h, hnext, Registers.get, Registers.set]

theorem turned_round (n : ℕ) :
    turned n ((List.range n).foldl (fun r i => set (roundFunction round) X r (operation round i)) r) =
      (List.range n).foldl (turn X round) r := by
  induction n with
  | zero => rfl
  | succ n ih =>
    rw [List.range_succ, List.foldl_append, List.foldl_append, List.foldl_cons, List.foldl_nil,
      List.foldl_cons, List.foldl_nil, turned_set, ih]

theorem foldl_round {f : Word → Word → Word → Word} {ops : List Operation}
    (hops : ops = (List.range 16).map (operation round)) (hf : roundFunction round = f) :
    ops.foldl (set f X) r = (List.range 16).foldl (turn X round) r := by
  rw [hops, ← hf, List.foldl_map, ← turned_round]
  rfl

/-- The operations that are written out do what the loops do, and either byte order gives the same. -/
theorem process_eq_compress (order : ByteOrder) (abcd : Registers) (data : List Byte) :
    process order abcd data = compress abcd data := by
  have h₁ : ∀ X r, round1.foldl (set F X) r = (List.range 16).foldl (turn X 0) r :=
    fun _ _ => foldl_round rfl rfl
  have h₂ : ∀ X r, round2.foldl (set G X) r = (List.range 16).foldl (turn X 1) r :=
    fun _ _ => foldl_round rfl rfl
  have h₃ : ∀ X r, round3.foldl (set H X) r = (List.range 16).foldl (turn X 2) r :=
    fun _ _ => foldl_round rfl rfl
  have h₄ : ∀ X r, round4.foldl (set I X) r = (List.range 16).foldl (turn X 3) r :=
    fun _ _ => foldl_round rfl rfl
  have hrange : List.range 4 = [0, 1, 2, 3] := rfl
  simp only [process, compress, word_eq, h₁, h₂, h₃, h₄, hrange, List.foldl_cons, List.foldl_nil]

end Loop

section Stream
variable {order : ByteOrder} {pms : State} {msg data p : List Byte} {abcd : Registers}
  {n left : ℕ}

/-- The state after `msg`. -/
structure Holds (pms : State) (msg : List Byte) : Prop where
  count0 : pms.count0.toNat = 8 * msg.length % 2 ^ 32
  count1 : pms.count1.toNat = 8 * msg.length / 2 ^ 32 % 2 ^ 32
  abcd : (pms.abcd, pms.buf.1.take (msg.length % 64)) = absorb compress 64 initial msg

theorem holds_init (pms : State) : Holds (init pms) [] := ⟨rfl, rfl, rfl⟩

theorem Holds.offset (h : Holds pms msg) : (pms.count0 >>> 3 &&& 63).toNat = msg.length % 64 := by
  have hmask : (63 : Word).toNat = 2 ^ 6 - 1 := rfl
  rw [BitVec.toNat_and, BitVec.toNat_ushiftRight, h.count0, Nat.shiftRight_eq_div_pow, hmask,
    Nat.and_two_pow_sub_one_eq_mod]
  omega

theorem fullBlocks_spec (order : ByteOrder) (abcd : Registers) (hp : left ≤ p.length) :
    ∃ p', whileLoop (fun x => some (64 ≤ x.2.2)) (fullBlock order) (left / 64) (abcd, p, left) =
        some ((absorb compress 64 abcd (p.take left)).1, p', left % 64) ∧ left % 64 ≤ p'.length ∧
      p'.take (left % 64) = (absorb compress 64 abcd (p.take left)).2 := by
  have hlength : (p.take left).length = left := List.length_take_of_le hp
  induction hk : left / 64 generalizing abcd p left with
  | zero =>
    have hlt : left < 64 := by omega
    have hstop : decide (64 ≤ left) = false := decide_eq_false (by omega)
    rw [absorb_of_lt (hlength.trans_lt hlt), Nat.mod_eq_of_lt hlt]
    exact ⟨p, whileLoop_stop (congrArg some hstop), hp, rfl⟩
  | succ k ih =>
    have hle : 64 ≤ left := by omega
    have hround : fullBlock order (abcd, p, left) =
        some (compress abcd (p.take 64), p.drop 64, left - 64) := by
      rw [fullBlock, if_pos (hle.trans hp), process_eq_compress]
    have hstep : absorb compress 64 abcd (p.take left) =
        absorb compress 64 (compress abcd (p.take 64)) ((p.drop 64).take (left - 64)) := by
      rw [absorb_of_le (by omega) (by omega), List.take_take, Nat.min_eq_left (by omega),
        List.drop_take]
    have hrest : left - 64 ≤ (p.drop 64).length := by
      rw [List.length_drop]
      omega
    obtain ⟨p', hloop, hle', hp'⟩ := ih (compress abcd (p.take 64)) hrest
      (List.length_take_of_le hrest) (by omega)
    have hmod : (left - 64) % 64 = left % 64 := by omega
    rw [hmod] at hloop hle' hp'
    rw [hstep]
    refine ⟨p', ?_, hle', hp'⟩
    rw [whileLoop_go _ hround, hloop]
    exact congrArg some (decide_eq_true hle)

theorem memcpy_spec (dst : Buffer) {offset : ℕ} (h : offset + n ≤ 64) (hn : n ≤ data.length) :
    ∃ buf, memcpy dst offset data n = some buf ∧
      buf.1.take (offset + n) = dst.1.take offset ++ data.take n := by
  refine ⟨_, dif_pos ⟨h, hn⟩, ?_⟩
  have hdst := dst.2
  rw [List.take_append_of_le_length, List.take_of_length_le]
  all_goals
    simp only [List.length_append, List.length_take]
    omega

theorem appendBlocks_spec (order : ByteOrder) (pms : State) (hp : left ≤ p.length) :
    ∃ buf, appendBlocks order pms p left =
        some { pms with abcd := (absorb compress 64 pms.abcd (p.take left)).1, buf := buf } ∧
      buf.1.take (left % 64) = (absorb compress 64 pms.abcd (p.take left)).2 := by
  obtain ⟨p', hloop, hle, hrest⟩ := fullBlocks_spec order pms.abcd hp
  by_cases hzero : left % 64 = 0
  · refine ⟨pms.buf, ?_, ?_⟩
    · simp [appendBlocks, hloop, hzero]
    · rw [← hrest, hzero]
      rfl
  · have hroom : 0 + left % 64 ≤ 64 := by omega
    obtain ⟨buf, hcopy, htake⟩ := memcpy_spec pms.buf hroom hle
    rw [Nat.zero_add] at htake
    refine ⟨buf, ?_, htake.trans hrest⟩
    simp [appendBlocks, hloop, hzero, hcopy]

/-- The two halves of the number of bits. -/
theorem Holds.counts (h : Holds pms msg) (hlt : n < 2 ^ 31) :
    let nbits : Word := BitVec.ofInt 32 n <<< 3
    let count1 := pms.count1 + BitVec.ofInt 32 ((n : ℤ) >>> (29 : ℕ))
    let count0 := pms.count0 + nbits
    count0.toNat = 8 * (msg.length + n) % 2 ^ 32 ∧
      (if count0 < nbits then count1 + 1 else count1).toNat =
        8 * (msg.length + n) / 2 ^ 32 % 2 ^ 32 := by
  intro nbits count1 count0
  have hn : nbits.toNat = 8 * n % 2 ^ 32 := by
    change (BitVec.ofInt 32 n <<< 3).toNat = _
    rw [BitVec.ofInt_natCast, BitVec.toNat_shiftLeft, BitVec.toNat_ofNat, Nat.shiftLeft_eq]
    omega
  have hhigh : (BitVec.ofInt 32 ((n : ℤ) >>> (29 : ℕ))).toNat = 8 * n / 2 ^ 32 := by
    rw [Int.shiftRight_eq_div_pow]
    norm_cast
    rw [BitVec.ofInt_natCast, BitVec.toNat_ofNat]
    omega
  have hc₀ := h.count0
  have hc₁ := h.count1
  have hsum₀ : count0.toNat = (pms.count0.toNat + nbits.toNat) % 2 ^ 32 := BitVec.toNat_add _ _
  have hsum₁ : count1.toNat = (pms.count1.toNat + 8 * n / 2 ^ 32) % 2 ^ 32 := by
    rw [BitVec.toNat_add, hhigh]
  refine ⟨by omega, ?_⟩
  by_cases hcarry : count0 < nbits
  · have hlt' := BitVec.lt_def.mp hcarry
    have hone : (1 : Word).toNat = 1 := rfl
    rw [if_pos hcarry, BitVec.toNat_add, hone]
    omega
  · have hge : ¬ count0.toNat < nbits.toNat := fun hl => hcarry (BitVec.lt_def.mpr hl)
    rw [if_neg hcarry]
    omega

theorem appendBytes_spec (order : ByteOrder) (pms : State) {offset : ℕ} (ho : offset < 64)
    (hint : offset ≠ 0 → offset + n < 2 ^ 31) (hn : n ≤ data.length) :
    ∃ abcd buf, appendBytes order pms offset data n = some { pms with abcd := abcd, buf := buf } ∧
      (abcd, buf.1.take ((offset + n) % 64)) =
        absorb compress 64 pms.abcd (pms.buf.1.take offset ++ data.take n) := by
  have hbuf := pms.buf.2
  have hlength : (pms.buf.1.take offset).length = offset := List.length_take_of_le (by omega)
  by_cases hzero : offset = 0
  · obtain ⟨buf, hblocks, htake⟩ := appendBlocks_spec order pms hn
    refine ⟨_, buf, (if_neg (not_not.mpr hzero)).trans hblocks, ?_⟩
    rw [hzero, Nat.zero_add, htake]
    rfl
  · rw [appendBytes, if_pos hzero, if_neg (not_le.mpr (hint hzero))]
    by_cases hshort : offset + n < 64
    · have hcopy : ¬ 64 < offset + n := by omega
      obtain ⟨buf, hmemcpy, htake⟩ := memcpy_spec pms.buf hshort.le hn
      refine ⟨pms.abcd, buf, ?_, ?_⟩
      · simp only [if_neg hcopy, hmemcpy, if_pos hshort, Option.bind_eq_bind, Option.bind_some]
      · rw [Nat.mod_eq_of_lt hshort, htake, absorb_of_lt]
        rw [List.length_append, hlength, List.length_take_of_le hn]
        exact hshort
    · -- the first block is made of what is in the buffer and the first bytes
      have hcopy : (if 64 < offset + n then 64 - offset else n) = 64 - offset := by
        split_ifs <;> omega
      have hfull : offset + (64 - offset) = 64 := by omega
      have hmore : 64 - offset ≤ data.length := by omega
      obtain ⟨buf, hmemcpy, htake⟩ := memcpy_spec pms.buf hfull.le hmore
      rw [hfull, List.take_of_length_le buf.2.le] at htake
      have htake₁ : (pms.buf.1.take offset ++ data.take n).take 64 = buf := by
        rw [htake, List.take_append, hlength, List.take_take, List.take_take,
          Nat.min_eq_right (by omega), Nat.min_eq_left (by omega)]
      have hdrop₁ : (pms.buf.1.take offset ++ data.take n).drop 64 =
          (data.drop (64 - offset)).take (n - (64 - offset)) := by
        rw [List.drop_append, hlength, List.drop_eq_nil_of_le (by omega), List.nil_append,
          List.drop_take]
      have hlength₁ : 64 ≤ (pms.buf.1.take offset ++ data.take n).length := by
        rw [List.length_append, hlength, List.length_take_of_le hn]
        omega
      have hrest : n - (64 - offset) ≤ (data.drop (64 - offset)).length := by
        rw [List.length_drop]
        omega
      obtain ⟨buf', hblocks, htake'⟩ := appendBlocks_spec order
        { pms with abcd := process order pms.abcd buf.1, buf := buf } hrest
      generalize hx : absorb compress 64 (process order pms.abcd buf.1)
        ((data.drop (64 - offset)).take (n - (64 - offset))) = x at hblocks htake'
      have hmod : (n - (64 - offset)) % 64 = (offset + n) % 64 := by omega
      refine ⟨x.1, buf', ?_, ?_⟩
      · simp only [hcopy, hmemcpy, hfull, lt_self_iff_false, if_false, Option.bind_eq_bind,
          Option.bind_some]
        exact hblocks
      · rw [← hmod, htake', absorb_of_le (Nat.zero_lt_succ 63) hlength₁, htake₁, hdrop₁, ← hx,
          process_eq_compress]

/-- A piece of the message is taken as the message is. -/
theorem Holds.append (h : Holds pms msg) (order : ByteOrder) (hn : n ≤ data.length)
    (hlt : n < 2 ^ 31) (hint : msg.length % 64 ≠ 0 → msg.length % 64 + n < 2 ^ 31) :
    ∃ pms', Md5.append order pms data n = some pms' ∧ Holds pms' (msg ++ data.take n) := by
  rcases Nat.eq_zero_or_pos n with rfl | hpos
  · refine ⟨pms, ?_, by rwa [List.take_zero, List.append_nil]⟩
    rw [Md5.append, if_pos (Int.natCast_nonpos_iff.mpr rfl)]
  · have hsome : ¬ (n : ℤ) ≤ 0 := by omega
    have hlength : (msg ++ data.take n).length = msg.length + n := by
      rw [List.length_append, List.length_take_of_le hn]
    obtain ⟨h₀, h₁⟩ := h.counts hlt
    rw [← hlength] at h₀ h₁
    rw [Md5.append, h.offset, if_neg hsome, Int.toNat_natCast]
    obtain ⟨abcd, buf, happend, habcd⟩ := appendBytes_spec order
      ⟨pms.count0 + BitVec.ofInt 32 n <<< 3, _, pms.abcd, pms.buf⟩
      (Nat.mod_lt msg.length (Nat.zero_lt_succ 63)) hint hn
    refine ⟨_, happend, h₀, h₁, ?_⟩
    rw [absorb_append (Nat.zero_lt_succ 63), ← h.abcd, hlength, ← Nat.mod_add_mod]
    exact habcd

end Stream

section Finish
variable {order : ByteOrder} {pms : State} {msg : List Byte}

/-- How many bytes of `pad` are taken: one at least, up to eight bytes before the end of a block. -/
def padCount (length : ℕ) : ℕ := (119 - length % 64) % 64 + 1

/-- The number of bits, in eight bytes. -/
def bitCount (length : ℕ) : List Byte :=
  (List.range 8).map fun i => Fin.ofNat 256 (8 * length / 256 ^ i)

/-- The message as it is taken in the end. -/
def padded (msg : List Byte) : List Byte :=
  msg ++ (pad.take (padCount msg.length) ++ bitCount msg.length)

/-- The digest of the padded message, block by block. -/
def md5 (msg : List Byte) : List Byte := digest (absorb compress 64 initial (padded msg)).1

theorem padCount_le (n : ℕ) : padCount n ≤ pad.length := by
  have hlt : (119 - n % 64) % 64 < 64 := Nat.mod_lt _ (by omega)
  exact hlt

theorem length_bitCount (n : ℕ) : (bitCount n).length = 8 := rfl

theorem length_padded (msg : List Byte) : (padded msg).length % 64 = 0 := by
  rw [padded, List.length_append, List.length_append, List.length_take_of_le (padCount_le _),
    length_bitCount, padCount]
  omega

theorem bitCount_inj {m n : ℕ} (hm : m < 2 ^ 61) (hn : n < 2 ^ 61) (h : bitCount m = bitCount n) :
    m = n := by
  have hbyte : ∀ i < 8, 8 * m / 256 ^ i % 256 = 8 * n / 256 ^ i % 256 := by
    intro i hi
    have hi' := congrArg (fun l => l[i]?) h
    simpa [bitCount, hi, Fin.ext_iff, Fin.ofNat] using hi'
  have hlow : ∀ k ≤ 8, 8 * m % 256 ^ k = 8 * n % 256 ^ k := by
    intro k
    induction k with
    | zero => simp [Nat.mod_one]
    | succ k ih =>
      intro hk
      rw [Nat.mod_pow_succ, Nat.mod_pow_succ, ih (by omega), hbyte k (by omega)]
  have hall := hlow 8 le_rfl
  rw [Nat.mod_eq_of_lt (by omega), Nat.mod_eq_of_lt (by omega)] at hall
  omega

/-- Messages of less than 2⁶¹ bytes stay different. -/
theorem padded_injOn : Set.InjOn padded {msg | msg.length < 2 ^ 61} := by
  intro m hm m' hm' h
  rw [padded, padded, ← List.append_assoc, ← List.append_assoc] at h
  obtain ⟨hpad, hcount⟩ := List.append_inj' h rfl
  exact (List.append_inj hpad (bitCount_inj hm hm' hcount)).1

theorem Holds.padCount (h : Holds pms msg) :
    ((((55 : Word) - pms.count0 >>> 3) &&& 63) + 1).toInt = (padCount msg.length : ℤ) := by
  have hmask : (63 : Word).toNat = 2 ^ 6 - 1 := rfl
  have hone : (1 : Word).toNat = 1 := rfl
  have h55 : (55 : Word).toNat = 55 := rfl
  have hnat : ((((55 : Word) - pms.count0 >>> 3) &&& 63) + 1).toNat = Md5.padCount msg.length := by
    rw [BitVec.toNat_add, BitVec.toNat_and, hmask, Nat.and_two_pow_sub_one_eq_mod, BitVec.toNat_sub,
      BitVec.toNat_ushiftRight, h.count0, Nat.shiftRight_eq_div_pow, hone, h55, Md5.padCount]
    omega
  have hle := padCount_le msg.length
  rw [BitVec.toInt_eq_toNat_of_lt, hnat]
  rw [hnat]
  exact (Nat.mul_le_mul_left 2 hle).trans_lt (by decide)

theorem Holds.bitCount (h : Holds pms msg) :
    ((List.range 8).map fun i => byte ([pms.count0, pms.count1].getD (i >>> 2) 0) i) =
      bitCount msg.length := by
  apply List.map_congr_left
  intro i hi
  have hi' : i = 0 ∨ i = 1 ∨ i = 2 ∨ i = 3 ∨ i = 4 ∨ i = 5 ∨ i = 6 ∨ i = 7 := by
    rw [List.mem_range] at hi
    omega
  have h₀ := h.count0
  have h₁ := h.count1
  rcases hi' with rfl | rfl | rfl | rfl | rfl | rfl | rfl | rfl <;>
    simp [byte, Fin.ext_iff, Fin.ofNat, Nat.shiftRight_eq_div_pow, h₀, h₁] <;> omega

theorem Holds.finish (h : Holds pms msg) (order : ByteOrder) :
    Md5.finish order pms = some (md5 msg) := by
  have hle := padCount_le msg.length
  have hpad : pad.length = 64 := rfl
  obtain ⟨pms₁, h₁, hmsg₁⟩ := h.append order hle (by omega) (by omega)
  have hdata := length_bitCount msg.length
  obtain ⟨pms₂, h₂, hmsg₂⟩ := hmsg₁.append order hdata.ge (by omega) (by omega)
  rw [List.take_of_length_le hdata.le, List.append_assoc] at hmsg₂
  have hfst := congrArg Prod.fst hmsg₂.abcd
  simp only [Md5.finish, h.padCount, h.bitCount, h₁, Option.bind_eq_bind, Option.bind_some]
  rw [show Md5.append order pms₁ (Md5.bitCount msg.length) 8 = some pms₂ from h₂, Option.bind_some,
    md5, padded, ← hfst]

end Finish

section Runs
variable (order : ByteOrder) (pms : State)

theorem Holds.pieces {pms : State} {msg : List Byte} {pieces : List (List Byte)} (h : Holds pms msg)
    (hp : ∀ data ∈ pieces, data.length + 63 < 2 ^ 31) :
    ∃ pms', pieces.foldlM (fun pms data => Md5.append order pms data data.length) pms = some pms' ∧
      Holds pms' (msg ++ pieces.flatten) := by
  induction pieces generalizing pms msg with
  | nil => exact ⟨pms, rfl, by rwa [List.flatten_nil, List.append_nil]⟩
  | cons data pieces ih =>
    have hlt := hp data List.mem_cons_self
    obtain ⟨pms₁, h₁, hmsg₁⟩ := h.append order (n := data.length) le_rfl (by omega) (by omega)
    obtain ⟨pms', h', hmsg'⟩ := ih hmsg₁ fun d hd => hp d (List.mem_cons_of_mem _ hd)
    refine ⟨pms', ?_, ?_⟩
    · rw [List.foldlM_cons, h₁]
      exact h'
    · rwa [List.take_length, List.append_assoc] at hmsg'

/-- Whatever pieces a message comes in, on a machine of either byte order, and whatever the state held
before, the digest is that of the whole message. -/
theorem finish_pieces {pieces : List (List Byte)}
    (hp : ∀ data ∈ pieces, data.length + 63 < 2 ^ 31) :
    ((pieces.foldlM (fun pms data => append order pms data data.length) (init pms)).bind
      (finish order)) = some (md5 pieces.flatten) := by
  obtain ⟨pms', h', hmsg⟩ := (holds_init pms).pieces order hp
  rw [h', Option.bind_some, hmsg.finish, List.nil_append]

/-- `"abc"` in two pieces. -/
theorem finish_pieces_abc :
    (([[97], [98, 99]].foldlM (fun pms data => append .big pms data data.length)
      (init ⟨1, 2, initial, List.replicate 64 3, rfl⟩)).bind (finish .big)) =
        some [0x90, 0x01, 0x50, 0x98, 0x3c, 0xd2, 0x4f, 0xb0, 0xd6, 0x96, 0x3f, 0x7d, 0x28, 0xe1,
          0x7f, 0x72] :=
  (finish_pieces .big _ (by decide)).trans (by decide +kernel)

theorem conhashMd5Digest_eq (s : Str) : conhashMd5Digest order pms s =
    some (md5 ((cstr s).take (BitVec.ofNat 32 (cstr s).length).toInt.toNat)) := by
  have hinit := holds_init pms
  set nbytes := (BitVec.ofNat 32 (cstr s).length).toInt with hn
  have hlt : nbytes < 2 ^ 31 := BitVec.toInt_lt
  have hle : nbytes.toNat ≤ (cstr s).length := by
    have hcond := BitVec.toInt_eq_toNat_cond (BitVec.ofNat 32 (cstr s).length)
    rw [BitVec.toNat_ofNat, ← hn] at hcond
    have hmod := Nat.mod_le (cstr s).length (2 ^ 32)
    split_ifs at hcond <;> omega
  have happend : ∃ pms', append order (init pms) (cstr s) nbytes = some pms' ∧
      Holds pms' ((cstr s).take nbytes.toNat) := by
    by_cases hzero : nbytes ≤ 0
    · refine ⟨init pms, if_pos hzero, ?_⟩
      rw [Int.toNat_of_nonpos hzero, List.take_zero]
      exact hinit
    · have hcast : (nbytes.toNat : ℤ) = nbytes := Int.toNat_of_nonneg (by omega)
      obtain ⟨pms', h', hmsg⟩ := hinit.append order hle (by omega) (fun h => absurd rfl h)
      exact ⟨pms', hcast ▸ h', hmsg⟩
  obtain ⟨pms', h', hmsg⟩ := happend
  rw [conhashMd5Digest, ← hn, h']
  exact hmsg.finish order

end Runs

section Hash

/-- Bytes that are shifted to different places add up. -/
theorem or_bytes {b₀ b₁ b₂ b₃ : BitVec 64} (h₀ : b₀.toNat < 2 ^ 8) (h₁ : b₁.toNat < 2 ^ 8)
    (h₂ : b₂.toNat < 2 ^ 8) (h₃ : b₃.toNat < 2 ^ 8) :
    (b₃ <<< 24 ||| b₂ <<< 16 ||| b₁ <<< 8 ||| b₀).toNat =
      2 ^ 24 * b₃.toNat + 2 ^ 16 * b₂.toNat + 2 ^ 8 * b₁.toNat + b₀.toNat := by
  have hshift : ∀ {b : BitVec 64} {k : ℕ}, b.toNat < 2 ^ 8 → k ≤ 24 →
      (b <<< k).toNat = 2 ^ k * b.toNat := by
    intro b k hb hk
    have hpow : 2 ^ k ≤ 2 ^ 24 := Nat.pow_le_pow_right Nat.two_pos hk
    rw [BitVec.toNat_shiftLeft, Nat.shiftLeft_eq, Nat.mul_comm, Nat.mod_eq_of_lt]
    have hlt := Nat.mul_lt_mul'' (hpow.trans_lt (by decide : 2 ^ 24 < 2 ^ 25)) hb
    exact hlt.trans_le (by decide : 2 ^ 25 * 2 ^ 8 ≤ 2 ^ 64)
  have h₃₂ : 2 ^ 24 * b₃.toNat ||| 2 ^ 16 * b₂.toNat = 2 ^ 16 * (2 ^ 8 * b₃.toNat + b₂.toNat) := by
    rw [← Nat.two_pow_add_eq_or_of_lt (by omega)]
    omega
  have h₂₁ : 2 ^ 16 * (2 ^ 8 * b₃.toNat + b₂.toNat) ||| 2 ^ 8 * b₁.toNat =
      2 ^ 8 * (2 ^ 8 * (2 ^ 8 * b₃.toNat + b₂.toNat) + b₁.toNat) := by
    rw [← Nat.two_pow_add_eq_or_of_lt (by omega)]
    omega
  rw [BitVec.toNat_or, BitVec.toNat_or, BitVec.toNat_or, hshift h₃ (by omega), hshift h₂ (by omega),
    hshift h₁ (by omega), h₃₂, h₂₁, ← Nat.two_pow_add_eq_or_of_lt h₀]
  omega

/-- The word that four bytes of the digest are put together to. -/
def hashWord (w : Word) : BitVec 64 :=
  let b := fun i => BitVec.ofNat 64 (byte w i).val &&& 0xFF
  b 3 <<< 24 ||| b 2 <<< 16 ||| b 1 <<< 8 ||| b 0

theorem toNat_hashWord (w : Word) : (hashWord w).toNat = w.toNat := by
  have hmask : (0xFF : BitVec 64).toNat = 2 ^ 8 - 1 := rfl
  have hbyte : ∀ i, (BitVec.ofNat 64 (byte w i).val &&& 0xFF).toNat =
      w.toNat / 2 ^ ((i &&& 3) <<< 3) % 256 := by
    intro i
    rw [BitVec.toNat_and, hmask, Nat.and_two_pow_sub_one_eq_mod, BitVec.toNat_ofNat, byte,
      Fin.val_ofNat, BitVec.toNat_ushiftRight, Nat.shiftRight_eq_div_pow]
    omega
  have h₀ : (BitVec.ofNat 64 (byte w 0).val &&& 0xFF).toNat = w.toNat / 1 % 256 := hbyte 0
  have h₁ : (BitVec.ofNat 64 (byte w 1).val &&& 0xFF).toNat = w.toNat / 2 ^ 8 % 256 := hbyte 1
  have h₂ : (BitVec.ofNat 64 (byte w 2).val &&& 0xFF).toNat = w.toNat / 2 ^ 16 % 256 := hbyte 2
  have h₃ : (BitVec.ofNat 64 (byte w 3).val &&& 0xFF).toNat = w.toNat / 2 ^ 24 % 256 := hbyte 3
  have hlt : ∀ n, n % 256 < 2 ^ 8 := fun n => Nat.mod_lt n (Nat.zero_lt_succ 255)
  have hw := w.isLt
  have hsum := or_bytes (h₀.trans_lt (hlt _)) (h₁.trans_lt (hlt _)) (h₂.trans_lt (hlt _))
    (h₃.trans_lt (hlt _))
  rw [h₀, h₁, h₂, h₃] at hsum
  refine hsum.trans ?_
  omega

/-- The default hash of any string is the sum of the four words of the digest, so it lies between zero
and four times the largest word. A length that is negative as an `int` counts as zero. -/
theorem conhashHashDef_eq (order : ByteOrder) (pms : State) (s : Str) :
    let msg := (cstr s).take (BitVec.ofNat 32 (cstr s).length).toInt.toNat
    let r := (absorb compress 64 initial (padded msg)).1
    let hash := r.a.toNat + r.b.toNat + r.c.toNat + r.d.toNat
    conhashHashDef order pms s = some (hash : ℤ) ∧ hash ≤ 4 * (2 ^ 32 - 1) := by
  intro msg r hash
  have ha := r.a.isLt
  have hb := r.b.isLt
  have hc := r.c.isLt
  have hd := r.d.isLt
  have hsum : conhashHashDef order pms s =
      some (0 + hashWord r.a + hashWord r.b + hashWord r.c + hashWord r.d).toInt := by
    rw [conhashHashDef, conhashMd5Digest_eq]
    rfl
  have hnat : (0 + hashWord r.a + hashWord r.b + hashWord r.c + hashWord r.d).toNat = hash := by
    have hzero : (0 : BitVec 64).toNat = 0 := rfl
    simp only [BitVec.toNat_add, hzero, toNat_hashWord]
    omega
  refine ⟨?_, by omega⟩
  rw [hsum, BitVec.toInt_eq_toNat_of_lt, hnat]
  rw [hnat]
  omega

end Hash
end DCache.Ring.Md5
