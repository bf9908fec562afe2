/-
# What stands behind a segment

`terminate`, on any stream.

A bit string that is not longer than its codewords is filled up to them, and the filling
is determined part by part (`Fills`): the terminator is cut short where the capacity ends,
the zeros after it reach the next byte boundary and no further, and the pad codewords take
what is left.  How long each part is depends on the length modulo eight and on the distance
to the capacity; that the parts always add up is `closedCodewords_le`.

| length of the bit string | padding |
| --- | --- |
| above the capacity | fails, and leaves the bit string as it is |
| up to the capacity | fills it, and changes nothing when done again |

No other failure can be reached, and no difference is negative on the way
(`writePadding_fills`).
-/

import QRCode.Proofs.Checked.Encoding

namespace QRCode
namespace BitString

/-- A bit string `t` is `s` filled up to `codewords` codewords: with a terminator of four
zeros, or of as many as there is room for, with zeros up to a byte boundary, and with the
pad codewords `0xEC` and `0x11` in turn. -/
structure Fills (codewords : Nat) (s t : BitString) : Prop where
  wellFormed : t.WellFormed
  length_eq : t.length = 8 * codewords
  toBits_eq : ∃ (zeros : Nat) (pads : List UInt8),
    t.toBits = s.toBits ++ List.replicate (min 4 (8 * codewords - s.length)) false ++
        List.replicate zeros false ++ pads.flatMap byteBits ∧
      zeros < 8 ∧ (s.length + min 4 (8 * codewords - s.length) + zeros) % 8 = 0 ∧
      ∀ (i : Nat) (h : i < pads.length), pads[i] = if i % 2 = 0 then 0xEC else 0x11

variable {s : BitString} {codewords : Nat}

/-- Pad codewords alternate, beginning with `0xEC`. -/
theorem getElem_padCodewords {count i : Nat} (h : i < (padCodewords count).length) :
    (padCodewords count)[i] = if i % 2 = 0 then 0xEC else 0x11 := by
  simp only [padCodewords, List.getElem_map, List.getElem_range]

/-- **The parts of a filling**, each with its length. -/
theorem fills_ofBits (hlen : s.length ≤ 8 * codewords) :
    Fills codewords s (ofBits (s.toBits ++ fillBits codewords s.length)) := by
  obtain ⟨hwf, hbits⟩ := wellFormed_ofBits (s.toBits ++ fillBits codewords s.length)
  refine ⟨hwf, ?_, ?_⟩
  · rw [length_ofBits, List.length_append, length_toBits, length_fillBits hlen]
    omega
  · have hle := closedCodewords_le hlen
    -- zeros up to the boundary at which the bit string is closed
    obtain ⟨zeros, hzeros⟩ : ∃ zeros, 8 * closedCodewords codewords s.length - s.length =
        min 4 (8 * codewords - s.length) + zeros :=
      Nat.exists_eq_add_of_le (by unfold closedCodewords at hle ⊢; omega)
    refine ⟨zeros, padCodewords (codewords - closedCodewords codewords s.length), ?_, ?_, ?_, ?_⟩
    · rw [hbits, fillBits, hzeros, ← List.replicate_append_replicate]
      simp only [List.append_assoc]
    · unfold closedCodewords at hzeros
      omega
    · omega
    · exact fun i h => getElem_padCodewords h

/-- Nothing stands behind a bit string that fills its codewords. -/
theorem fillBits_full (codewords : Nat) : fillBits codewords (8 * codewords) = [] := by
  refine List.eq_nil_of_length_eq_zero ?_
  rw [length_fillBits (Nat.le_refl _), Nat.sub_self]

/-- **Padding once more changes nothing.** -/
theorem writePadding_full (h : s.WellFormed) (hlen : s.length = 8 * codewords) :
    writePadding codewords s = .ok 0 s := by
  have hclosed : closedCodewords codewords s.length = codewords := by
    unfold closedCodewords
    omega
  rw [writePadding_eq h (Nat.le_of_eq hlen), hclosed, Nat.sub_self, hlen, fillBits_full, List.append_nil,
    ← h.eq_ofBits]

/-- **Padding fills a bit string up to its codewords.**  It fails exactly for a bit string
that is longer, and leaves that as it is.  Otherwise the answer is filled up, and filling it
up again changes nothing.  Every test on the way is passed: no difference is negative, and
no number is longer than the bits that it is written in. -/
theorem writePadding_fills (h : s.WellFormed) (codewords : Nat) :
    (8 * codewords < s.length → writePadding codewords s = .error .capacityExceeded s) ∧
    (s.length ≤ 8 * codewords → ∃ pads t, writePadding codewords s = .ok pads t ∧
      Fills codewords s t ∧ writePadding codewords t = .ok 0 t) ∧
    Checked.writePadding codewords s = Checked.lift (Checked.written (writePadding codewords s)) := by
  refine ⟨fun hlong => ?_, fun hlen => ?_, Checked.writePadding_eq codewords s⟩
  · rw [writePadding, if_pos hlong]
  · have hfills := fills_ofBits hlen
    exact ⟨_, _, writePadding_eq h hlen, hfills, writePadding_full hfills.wellFormed hfills.length_eq⟩

/-- Nineteen bits in three codewords have room for a whole terminator, and for one zero after it. -/
theorem writePadding_fills_three :
    ∃ pads t, writePadding 3 (ofBits (List.replicate 19 true)) = .ok pads t ∧
      Fills 3 (ofBits (List.replicate 19 true)) t ∧ writePadding 3 t = .ok 0 t :=
  (writePadding_fills (wellFormed_ofBits (List.replicate 19 true)).1 3).2.1 (by
    rw [length_ofBits, List.length_replicate]
    decide)

end BitString
end QRCode
