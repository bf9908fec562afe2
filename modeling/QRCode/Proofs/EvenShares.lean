/-
# When codewords can be shared out

`BlockLayout::split`, for any numbers.

A plan for `total` codewords, `data` of them data, has blocks of two sizes.  The sizes are
quotients by the number of blocks, and the number of long blocks is the remainder of `total`
alone.  So the blocks always hold `total` codewords (`totalLength_shares`), but the right
number of data only if `data` leaves the same remainder (`dataLength_shares_eq_iff`).  Equal
remainders and a larger quotient mean that what is not data is shared out evenly
(`larger_quotient_iff`), and then a plan is made (`divide_eq`).  All other numbers are
refused, for the first of these reasons that applies:

| reason | when |
| --- | --- |
| `zeroBlocks` | there is no block |
| `noCorrection` | the quotient of `total` is not larger than that of `data` |
| `uncoveredCodewords` | the remainders differ |
-/

import QRCode.Proofs.Blocks
import Mathlib.Data.Int.ModEq

namespace QRCode
namespace BlockPlan

variable {total data blocks : Nat}

/-- The plan that quotients and a remainder describe, before its blocks are added up. -/
def shares (total data blocks : Nat) : BlockPlan :=
  ⟨⟨blocks - total % blocks, total / blocks, data / blocks⟩,
    ⟨total % blocks, total / blocks + 1, data / blocks + 1⟩⟩

/-- Of `n` groups of size `q`, some have one element more. -/
theorem add_long {n long : Nat} (h : long ≤ n) (q : Nat) :
    (n - long) * q + long * (q + 1) = n * q + long := by
  obtain ⟨short, rfl⟩ := Nat.exists_eq_add_of_le h
  rw [Nat.add_sub_cancel_left]
  ring

/-- **All codewords have a block.** -/
theorem totalLength_shares (total data : Nat) (h : 0 < blocks) :
    (shares total data blocks).totalLength = total :=
  (add_long (Nat.mod_lt total h).le (total / blocks)).trans (Nat.div_add_mod total blocks)

/-- The data of a plan is the quotient for every block, and one more for every long one. -/
theorem dataLength_shares (total data : Nat) (h : 0 < blocks) :
    (shares total data blocks).dataLength = blocks * (data / blocks) + total % blocks :=
  add_long (Nat.mod_lt total h).le (data / blocks)

/-- **The data come out** when they leave the remainder that all codewords leave. -/
theorem dataLength_shares_eq_iff (total data : Nat) (h : 0 < blocks) :
    (shares total data blocks).dataLength = data ↔ total % blocks = data % blocks := by
  have hdata := Nat.div_add_mod data blocks
  rw [dataLength_shares total data h]
  omega

/-- **Sharing out evenly**, in terms of quotients and remainders. -/
theorem larger_quotient_iff (total data blocks : Nat) :
    (data / blocks < total / blocks ∧ total % blocks = data % blocks) ↔
      0 < blocks ∧ data < total ∧ blocks ∣ total - data := by
  constructor
  · rintro ⟨hquotient, hremainder⟩
    have hlt : data < total := Nat.lt_of_div_lt_div hquotient
    refine ⟨Nat.pos_of_ne_zero ?_, hlt, (Nat.modEq_iff_dvd' hlt.le).1 hremainder.symm⟩
    rintro rfl
    simp at hquotient
  · rintro ⟨-, hlt, hdvd⟩
    have hremainder : data % blocks = total % blocks := (Nat.modEq_iff_dvd' hlt.le).2 hdvd
    refine ⟨?_, hremainder.symm⟩
    -- with equal remainders, the larger number has the larger quotient
    by_contra hge
    have hmul := Nat.mul_le_mul_left blocks (Nat.le_of_not_lt hge)
    have htotal := Nat.div_add_mod total blocks
    have hdata := Nat.div_add_mod data blocks
    omega

/-- The reason for which numbers are refused. -/
def refusal (total data blocks : Nat) : StreamFault :=
  if blocks = 0 then .zeroBlocks
  else if total / blocks ≤ data / blocks then .noCorrection
  else .uncoveredCodewords

/-- **A division is carried out or refused.** -/
theorem divide_eq (total data blocks : Nat) :
    divide total data blocks =
      if 0 < blocks ∧ data < total ∧ blocks ∣ total - data then .ok (shares total data blocks)
      else .error (.malformed (refusal total data blocks)) := by
  rw [if_congr (larger_quotient_iff total data blocks).symm rfl rfl]
  unfold divide refusal
  split
  · rename_i hblocks
    rw [if_neg (by simp [hblocks])]
  · rename_i hblocks
    have hpos := Nat.pos_of_ne_zero hblocks
    have htotal := totalLength_shares total data hpos
    have hdata := dataLength_shares_eq_iff total data hpos
    show (if total / blocks ≤ data / blocks then _
      else if (shares total data blocks).totalLength ≠ total ∨
        (shares total data blocks).dataLength ≠ data then _ else _) = _
    split
    · rename_i hquotient
      rw [if_neg (by omega)]
    · rename_i hquotient
      by_cases hremainder : total % blocks = data % blocks
      · rw [if_neg (by rw [htotal, hdata.2 hremainder]; simp), if_pos ⟨by omega, hremainder⟩]
        rfl
      · rw [if_pos (.inr (hdata.not.2 hremainder)), if_neg fun h => hremainder h.2]

/-- Not all blocks are long. -/
theorem short_count_pos {plan : BlockPlan} (hplan : divide total data blocks = .ok plan) :
    0 < plan.short.count := by
  rw [divide_eq] at hplan
  split at hplan
  · rename_i heven
    obtain rfl := Except.ok.inj hplan
    exact Nat.sub_pos_of_lt (Nat.mod_lt total heven.1)
  · cases hplan

/-- **Codewords are divided exactly when those for error correction come out even.**  For all
numbers a plan is made when there are blocks, fewer data than codewords, and the blocks
divide the difference; otherwise the division is refused as malformed.  A plan has the blocks
and the codewords that it was made for, a share of error correction in every block, and at
least one short block; a long block has one data codeword more than a short one, and as many
for error correction. -/
theorem divides_evenly (total data blocks : Nat) :
    ((∃ plan, divide total data blocks = .ok plan) ↔
      0 < blocks ∧ data < total ∧ blocks ∣ total - data) ∧
    (∀ e, divide total data blocks = .error e → e = .malformed (refusal total data blocks)) ∧
    ∀ plan, divide total data blocks = .ok plan →
      plan.blockCount = blocks ∧ plan.totalLength = total ∧ plan.dataLength = data ∧
      plan.eccPerBlock * blocks = total - data ∧ 0 < plan.eccPerBlock ∧
      0 < plan.short.count ∧ plan.long.data = plan.short.data + 1 ∧
      plan.short.total = plan.short.data + plan.eccPerBlock ∧
      plan.long.total = plan.long.data + plan.eccPerBlock := by
  refine ⟨?_, ?_, ?_⟩
  · rw [divide_eq]
    split
    · rename_i heven
      exact ⟨fun _ => heven, fun _ => ⟨_, rfl⟩⟩
    · rename_i hodd
      exact ⟨nofun, fun heven => absurd heven hodd⟩
  · intro e he
    rw [divide_eq] at he
    split at he
    · cases he
    · exact (Except.error.inj he).symm
  · intro plan hplan
    have h := divide_eq_ok hplan
    have hmul := h.ecc_mul
    exact ⟨h.blockCount_eq, h.totalLength_eq, h.dataLength_eq, by omega, h.ecc_pos,
      short_count_pos hplan, h.long_data, h.short_total_eq, h.long_total_eq⟩

/-- Seven codewords, one of them data, in three blocks: the short blocks have no data at all. -/
theorem divides_evenly_seven :
    divide 7 1 3 = .ok ⟨⟨2, 2, 0⟩, ⟨1, 3, 1⟩⟩ ∧
      (⟨⟨2, 2, 0⟩, ⟨1, 3, 1⟩⟩ : BlockPlan).eccPerBlock * 3 = 7 - 1 := by
  have hplan : divide 7 1 3 = .ok ⟨⟨2, 2, 0⟩, ⟨1, 3, 1⟩⟩ := by decide
  obtain ⟨-, -, -, hecc, -⟩ := (divides_evenly 7 1 3).2.2 _ hplan
  exact ⟨hplan, hecc⟩

end BlockPlan
end QRCode
