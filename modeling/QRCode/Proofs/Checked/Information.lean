/-
# Format and version information, bit by bit

A number is drawn at a list of signed coordinates, its highest bit at the first of them
(`Canvas::draw_number`).  These are the steps of `Canvas::draw_format_info` and
`Canvas::draw_version_info` that could have no meaning:

| step | what is tested |
| --- | --- |
| check bits | every intermediate number fits in 32 bits |
| drawing a number | there is a coordinate for each bit, and a bit for each coordinate |
| one of its bits | the shift is not negative, and below 32 |
| setting a cell | both coordinates lie within the edges |
| version information | the version has some |

No test fails: the coordinates lie within the narrowest symbol, so both copies are drawn
on every draft (`Checked.drawFormat_eq`, `Checked.drawVersion_eq`).
-/

import QRCode.Proofs.Checked.Encoding
import QRCode.Proofs.Edits
import QRCode.Proofs.Strokes

namespace QRCode
namespace Checked

/-! ### Check bits -/

/-- One step of the division that gives check bits. -/
def bchStep (generator degree rem : Nat) : Checked Nat := do
  let shifted ← word 32 (rem <<< 1)
  let product ← word 32 ((rem >>> (degree - 1)) * generator)
  return shifted ^^^ product

/-- So many steps. -/
def bchSteps (generator degree : Nat) : Nat → Nat → Checked Nat
  | 0, rem => pure rem
  | k + 1, rem => do bchStep generator degree (← bchSteps generator degree k rem)

/-- The format information of a level and a mask (`format_info`). -/
def formatInfo (level : Level) (m : Mask) : Checked Nat := do
  let data := (level.formatBits <<< 3) ||| m.index.val
  let rem ← bchSteps formatGenerator 10 10 data
  return ((data <<< 10) ||| rem) ^^^ formatPattern

/-- The version information of a version (`Version::info`). -/
def versionInfo (v : Version) : Checked Nat := do
  require (7 ≤ v.number) (.noVersionInfo v.number)
  let rem ← bchSteps versionGenerator 12 12 v.number
  return (v.number <<< 12) ||| rem

/-- The highest bit of a number between two powers of two. -/
theorem testBit_top {x k : Nat} (h : 2 ^ k ≤ x) (h' : x < 2 ^ (k + 1)) : x.testBit k = true := by
  obtain ⟨a, rfl⟩ := Nat.exists_eq_add_of_le h
  rw [Nat.pow_succ] at h'
  rw [Nat.testBit_two_pow_add_eq, Nat.testBit_lt_two_pow (by omega), Bool.not_false]

/-- A remainder stays below the power of two that the generator starts with. -/
theorem step_lt {generator degree rem : Nat} (hdegree : 0 < degree) (hlow : 2 ^ degree ≤ generator)
    (hhigh : generator < 2 ^ (degree + 1)) (hrem : rem < 2 ^ degree) :
    Bch.step generator degree rem < 2 ^ degree := by
  obtain ⟨k, rfl⟩ : ∃ k, degree = k + 1 := ⟨degree - 1, by omega⟩
  have hpow : 2 ^ (k + 1) = 2 * 2 ^ k := Nat.pow_succ'
  rw [Bch.step, Nat.add_sub_cancel, Nat.shiftRight_eq_div_pow, Nat.shiftLeft_eq, Nat.pow_one]
  by_cases htop : rem < 2 ^ k
  · rw [Nat.div_eq_of_lt htop, Nat.zero_mul, Nat.xor_zero]
    omega
  · have hquotient : rem / 2 ^ k = 1 := by
      refine Nat.div_eq_of_lt_le ?_ ?_ <;> omega
    rw [hquotient, Nat.one_mul]
    have hdouble : rem * 2 < 2 ^ (k + 1 + 1) := by rw [Nat.pow_succ]; omega
    refine Nat.lt_pow_two_of_testBit _ fun i hi => ?_
    rw [Nat.testBit_xor]
    rcases Nat.eq_or_lt_of_le hi with rfl | hi
    · rw [testBit_top (by omega) hdouble, testBit_top hlow hhigh]
      rfl
    · have hle : 2 ^ (k + 1 + 1) ≤ 2 ^ i := Nat.pow_le_pow_right (by decide) hi
      rw [Nat.testBit_lt_two_pow (by omega), Nat.testBit_lt_two_pow (by omega)]
      rfl

/-- **Check bits are found in words**, for generators of a low degree. -/
theorem bchSteps_eq {generator degree data : Nat} (hpos : 0 < degree) (hdegree : degree < 16)
    (hlow : 2 ^ degree ≤ generator) (hhigh : generator < 2 ^ (degree + 1)) (hdata : data < 2 ^ degree)
    (k : Nat) :
    bchSteps generator degree k data = pure (Nat.repeat (Bch.step generator degree) k data) ∧
      Nat.repeat (Bch.step generator degree) k data < 2 ^ degree := by
  induction k with
  | zero => exact ⟨rfl, hdata⟩
  | succ k ih =>
    obtain ⟨hsteps, hrem⟩ := ih
    refine ⟨?_, step_lt hpos hlow hhigh hrem⟩
    have hdegree' : 2 ^ (degree + 1) ≤ 2 ^ 16 := Nat.pow_le_pow_right (by decide) hdegree
    have hproduct : Nat.repeat (Bch.step generator degree) k data >>> (degree - 1) * generator <
        2 ^ 16 * 2 ^ 16 := by
      refine Nat.mul_lt_mul_of_le_of_lt ?_ (by omega) (by decide)
      exact Nat.le_trans (Nat.shiftRight_le _ _) (by omega)
    rw [bchSteps, hsteps, pure_bind, bchStep, Nat.shiftLeft_eq, word_eq (by omega), pure_bind,
      word_eq hproduct, pure_bind, ← Nat.shiftLeft_eq]
    rfl

/-- Every level and mask have their format information. -/
theorem formatInfo_eq (level : Level) (m : Mask) :
    formatInfo level m = pure (QRCode.formatInfo level m) := by
  have hdata : ∀ i : Fin 8, (level.formatBits <<< 3) ||| i.val < 2 ^ 10 := by cases level <;> decide
  rw [formatInfo, (bchSteps_eq (by decide) (by decide) (by decide) (by decide) (hdata m.index) 10).1,
    pure_bind]
  rfl

/-- A version that carries version information has it. -/
theorem versionInfo_eq {v : Version} (h : v.hasInfo = true) :
    versionInfo v = pure (QRCode.versionInfo v) := by
  have hdata : v.number < 2 ^ 12 := by have := v.le_forty; omega
  rw [versionInfo, require_eq (of_decide_eq_true h), pure_bind,
    (bchSteps_eq (by decide) (by decide) (by decide) (by decide) hdata 12).1, pure_bind]
  rfl

/-! ### Coordinates -/

/-- A drawing at signed coordinates; one beyond the edges is a fault. -/
def inside {α : Type} (x : Except Error α) : Checked α :=
  match x with
  | .error (.outsideDraft x width) => ExceptT.mk (.error (.coordinate x width))
  | x => lift x

/-- A drawing that succeeds met no coordinate beyond the edges. -/
theorem inside_ok {α : Type} (a : α) : inside (.ok a) = pure a := rfl

/-- The coordinates of the main copy of the format information (`FORMAT_INFO_COORDS_QR_MAIN`). -/
def formatMainCoordinates : List (Int × Int) := formatMain.map fun p => (p.1, p.2)

/-- The coordinates of the side copy (`FORMAT_INFO_COORDS_QR_SIDE`). -/
def formatSideCoordinates : List (Int × Int) :=
  [(-1, 8), (-2, 8), (-3, 8), (-4, 8), (-5, 8), (-6, 8), (-7, 8),
    (8, -8), (8, -7), (8, -6), (8, -5), (8, -4), (8, -3), (8, -2), (8, -1)]

/-- The coordinates of the version information above the lower left finder
(`VERSION_INFO_COORDS_BL`). -/
def versionCoordinates : List (Int × Int) :=
  (List.range versionLength).map fun k => (-9 - (k % 3 : Nat), 5 - (k / 3 : Nat))

/-- In a symbol of any width, coordinates lie within the edges and name given places. -/
def Names (coordinates : List (Int × Int)) (places : Nat → List (Nat × Nat)) : Prop :=
  ∀ n, 21 ≤ n → (∀ x ∈ coordinates, Draft.Within n x) ∧ coordinates.map (Draft.placeOf n) = places n

/-- Rows and columns exchanged. -/
theorem Names.swap {coordinates : List (Int × Int)} {places : Nat → List (Nat × Nat)}
    (h : Names coordinates places) : Names (coordinates.map Prod.swap) fun n => (places n).map Prod.swap := by
  intro n hn
  obtain ⟨hwithin, hplaces⟩ := h n hn
  constructor
  · intro x hx
    obtain ⟨y, hy, rfl⟩ := List.mem_map.1 hx
    exact (hwithin y hy).symm
  · show _ = (places n).map Prod.swap
    rw [← hplaces, List.map_map, List.map_map]
    rfl

/-- The main copy counts from the near edges alone. -/
theorem names_formatMain : Names formatMainCoordinates fun _ => formatMain := by
  intro n hn
  have hsmall : ∀ x ∈ formatMainCoordinates, (-21 ≤ x.1 ∧ x.1 < 21) ∧ -21 ≤ x.2 ∧ x.2 < 21 := by decide
  have hsame : ∀ p ∈ formatMain, Draft.placeOf n (p.1, p.2) = p := by
    intro p hp
    obtain ⟨hr, hc, -⟩ := formatPlaces_bounds hn p (List.mem_append_left _ (List.mem_append_left _ hp))
    exact Draft.placeOf_natCast ⟨hr, hc⟩
  refine ⟨fun x hx => Draft.within_of_small hn (hsmall x hx), ?_⟩
  rw [formatMainCoordinates, List.map_map]
  exact (List.map_congr_left hsame).trans (List.map_id _)

/-- Both parts of the side copy count from a far edge. -/
theorem names_formatSide : Names formatSideCoordinates formatSide := by
  intro n hn
  have hsmall : ∀ x ∈ formatSideCoordinates, (-21 ≤ x.1 ∧ x.1 < 21) ∧ -21 ≤ x.2 ∧ x.2 < 21 := by decide
  have hsplit : formatSideCoordinates =
      ([1, 2, 3, 4, 5, 6, 7].map fun k : Nat => (-(k : Int), 8)) ++
        [8, 7, 6, 5, 4, 3, 2, 1].map fun k : Nat => (8, -(k : Int)) := rfl
  have hplaces : formatSide n = ([1, 2, 3, 4, 5, 6, 7].map fun k => (n - k, 8)) ++
      [8, 7, 6, 5, 4, 3, 2, 1].map fun k => (8, n - k) := rfl
  have height : ((8 : Int) % n).toNat = 8 := by
    have := Draft.toNat_emod (n := n) (x := 8) (by omega)
    omega
  refine ⟨fun x hx => Draft.within_of_small hn (hsmall x hx), ?_⟩
  rw [hsplit, hplaces, List.map_append, List.map_map, List.map_map]
  congr 1
  · refine List.map_congr_left fun k hk => ?_
    have hk : 0 < k ∧ k ≤ n := by simp at hk; omega
    exact Prod.ext (Draft.toNat_neg_emod hk.1 hk.2) height
  · refine List.map_congr_left fun k hk => ?_
    have hk : 0 < k ∧ k ≤ n := by simp at hk; omega
    exact Prod.ext height (Draft.toNat_neg_emod hk.1 hk.2)

/-- The lower left block counts its rows from the far edge. -/
theorem names_versionLowerLeft : Names versionCoordinates versionLowerLeft := by
  intro n hn
  have hsmall : ∀ x ∈ versionCoordinates, (-21 ≤ x.1 ∧ x.1 < 21) ∧ -21 ≤ x.2 ∧ x.2 < 21 := by decide
  refine ⟨fun x hx => Draft.within_of_small hn (hsmall x hx), ?_⟩
  rw [versionCoordinates, versionLowerLeft, List.map_map]
  refine List.map_congr_left fun k hk => ?_
  have hk : k < 18 := List.mem_range.1 hk
  have hrow := Draft.toNat_emod (n := n) (x := -9 - (k % 3 : Nat)) (by omega)
  have hcolumn := Draft.toNat_emod (n := n) (x := 5 - (k / 3 : Nat)) (by omega)
  refine Prod.ext ?_ ?_ <;> unfold Draft.placeOf <;> dsimp only [Function.comp] <;> omega

/-- The upper right block counts its columns from there. -/
theorem names_versionUpperRight : Names (versionCoordinates.map Prod.swap) versionUpperRight := by
  have hswap : versionUpperRight = fun n => (versionLowerLeft n).map Prod.swap := by
    funext n
    rw [versionLowerLeft, versionUpperRight, List.map_map]
    rfl
  rw [hswap]
  exact names_versionLowerLeft.swap

/-- The dark module lies inside every symbol. -/
theorem within_dark (d : Draft) : Draft.Within d.width (-8, 8) :=
  Draft.within_of_small d.version.width_bounds.1 (by decide)

/-- The dark module beside the side copy. -/
theorem placeOf_dark (d : Draft) : Draft.placeOf d.width (-8, 8) = darkPlace d.width := by
  have hw : 21 ≤ d.width := d.version.width_bounds.1
  have hrow := Draft.toNat_emod (n := d.width) (x := -8) (by omega)
  have hcolumn := Draft.toNat_emod (n := d.width) (x := 8) (by omega)
  refine Prod.ext ?_ ?_ <;> unfold Draft.placeOf darkPlace <;> dsimp only <;> omega

/-! ### Numbers -/

/-- One bit of a number at signed coordinates, chosen by its place in the list. -/
def drawBit (number bits : Nat) (role : Colour → Cell) (d : Draft) (e : (Int × Int) × Nat) :
    Checked Draft := do
  let top ← sub bits 1
  let shift ← sub top e.2
  require (shift < 32) (.wide shift)
  inside (d.set e.1.1 e.1.2 (role (.ofBit ((number >>> shift) &&& 1 = 1))))

/-- A number in given cells, its highest bit in the first of them (`Canvas::draw_number`). -/
def drawNumber (number bits : Nat) (role : Colour → Cell) (coordinates : List (Int × Int)) (d : Draft) :
    Checked Draft := do
  require (coordinates.length = bits) (.copy bits coordinates.length)
  coordinates.zipIdx.foldlM (drawBit number bits role) d

/-- The strokes of a number: its bits, highest first. -/
theorem zipIdx_map_bit (number : Nat) (coordinates : List (Int × Int)) :
    (coordinates.zipIdx.map fun e =>
      (e.1, Colour.ofBit ((number >>> (coordinates.length - 1 - e.2)) &&& 1 = 1))) =
        coordinates.zip ((bitsOf number coordinates.length).map Colour.ofBit) := by
  refine List.ext_getElem (by simp) fun i hi hi' => ?_
  simp [BitString.bitsOf_eq_map, Nat.testBit_eq_decide_div_mod_eq, Nat.shiftRight_eq_div_pow]

/-- **A number is drawn as the list of its bits**, on every draft. -/
theorem drawNumber_eq {coordinates : List (Int × Int)} {places : Nat → List (Nat × Nat)}
    (h : Names coordinates places) (number bits : Nat) (hlength : coordinates.length = bits)
    (hbits : bits ≤ 32) (role : Colour → Cell) (d : Draft) :
    drawNumber number bits role coordinates d =
      pure (d.withCells role ((places d.version.width).zip ((bitsOf number bits).map Colour.ofBit))) := by
  subst hlength
  obtain ⟨hwithin, hplaces⟩ := h d.version.width d.version.width_bounds.1
  have hstep : ∀ e ∈ coordinates.zipIdx, ∀ d : Draft,
      drawBit number coordinates.length role d e = lift (d.set e.1.1 e.1.2
        (role (.ofBit ((number >>> (coordinates.length - 1 - e.2)) &&& 1 = 1)))) := by
    intro e he d
    have hplace : e.2 < coordinates.length := (List.mem_zipIdx he).2.1.trans_eq (Nat.zero_add _)
    have hmem : e.1 ∈ coordinates := (List.mem_zipIdx' he).2 ▸ List.getElem_mem _
    rw [drawBit, sub_eq (by omega), pure_bind, sub_eq (by omega), pure_bind, require_eq (by omega), pure_bind,
      Draft.set_eq ((h d.version.width d.version.width_bounds.1).1 e.1 hmem), inside_ok, lift_ok]
  have hstrokes := Draft.strokeAll_eq (d := d) role
    fun s (hs : s ∈ coordinates.zip ((bitsOf number coordinates.length).map Colour.ofBit)) =>
      hwithin s.1 (List.of_mem_zip hs).1
  rw [← zipIdx_map_bit, Draft.strokeAll, List.foldlM_map] at hstrokes
  rw [drawNumber, require_eq rfl, pure_bind, foldlM_eq_lift hstep, hstrokes, zipIdx_map_bit,
    Draft.strokePlaces, ← hplaces, List.zip_map_left]
  rfl

/-! ### Both kinds of information -/

/-- Both copies of fifteen bits, and the dark module (`Canvas::draw_format_info`). -/
def drawFormat (info : Nat) (d : Draft) : Checked Draft := do
  let d ← drawNumber info formatLength .format formatMainCoordinates d
  let d ← drawNumber info formatLength .format formatSideCoordinates d
  inside (d.set (-8) 8 (.format .dark))

/-- Both copies of the version information, where the version has one (`Canvas::draw_version_info`). -/
def drawVersion (d : Draft) : Checked Draft :=
  if d.version.hasInfo then do
    let info ← versionInfo d.version
    let d ← drawNumber info versionLength .version versionCoordinates d
    drawNumber info versionLength .version (versionCoordinates.map Prod.swap) d
  else pure d

/-- The dark module stands beside the side copy. -/
theorem drawDark_eq (d : Draft) :
    d.set (-8) 8 (.format .dark) = .ok (d.withCells .format [(darkPlace d.version.width, .dark)]) := by
  have hplace : Draft.placeOf d.version.width (-8, 8) = darkPlace d.version.width := placeOf_dark d
  rw [← hplace]
  exact Draft.set_eq (within_dark d) _

/-- **The format information is drawn bit by bit** on every draft. -/
theorem drawFormat_eq (info : Nat) (d : Draft) : drawFormat info d = pure (d.drawFormat info) := by
  rw [drawFormat, drawNumber_eq names_formatMain info formatLength rfl (by decide), pure_bind,
    drawNumber_eq names_formatSide info formatLength rfl (by decide), pure_bind, drawDark_eq, inside_ok,
    Draft.drawFormat_eq, formatColours, Draft.withCells_append, Draft.withCells_append]
  simp only [Draft.withCells_version]

/-- **The version information is drawn bit by bit** on every draft. -/
theorem drawVersion_eq (d : Draft) : drawVersion d = pure d.drawVersion := by
  rw [Draft.drawVersion_eq, drawVersion, versionColours, versionPlaces]
  split
  · rename_i h
    have hlength : (versionLowerLeft d.version.width).length =
        ((bitsOf (QRCode.versionInfo d.version) versionLength).map Colour.ofBit).length := by
      rw [List.length_map, BitString.length_bitsOf, versionLowerLeft, List.length_map, List.length_range]
    rw [versionInfo_eq h, pure_bind, drawNumber_eq names_versionLowerLeft _ versionLength rfl (by decide), pure_bind,
      drawNumber_eq names_versionUpperRight _ versionLength rfl (by decide), ← Draft.withCells_append,
      List.zip_append hlength]
    rfl
  · rfl

end Checked
end QRCode
