/-
# Trying masks on any draft

`select_best_mask`, on any canvas.

The search for a mask does not ask how a draft came about: cells may be missing, roles may be
misplaced, and a mask may have been applied before.  Every trial starts from the draft that
the search was given, and never from what another trial has made of it.

A mask turns data round, which draws no cell, and writes the format information, which draws
31 places: two copies of 15 bits, and the dark module.  Which places these are does not depend
on the mask.  So whether a trial succeeds does not depend on the mask either
(`Draft.toSymbol_applyMask`): when an empty cell lies elsewhere, already the first trial fails
and the search with it (`selectMask_of_failure`); when none does, all eight are compared
(`selectMask_of_trials`).
-/

import QRCode.Proofs.BestMask
import QRCode.Proofs.Runs

namespace QRCode
namespace Draft

variable {d : Draft}

/-! ### Empty cells -/

/-- Whether all empty cells are places of the format information. -/
def Maskable (d : Draft) : Prop := ∀ p, d.grid.get? p = some .empty → p ∈ formatPlaces d.width

/-- A draft with no empty cell is maskable. -/
theorem maskable_of_isComplete (h : d.isComplete = true) : d.Maskable := by
  intro p hempty
  have hdrawn := isComplete_iff.1 h p (inside_of_cell hempty)
  exact absurd hempty ((isDrawn_iff_ne_empty (inside_of_cell hempty)).1 hdrawn)

/-- **A mask completes a draft** when nothing but format information is missing. -/
theorem isComplete_applyMask (d : Draft) (m : Mask) : (d.applyMask m).isComplete = true ↔ d.Maskable := by
  rw [isComplete_iff]
  constructor
  · intro hdrawn p hempty
    have hin := inside_of_cell hempty
    have hp := (isDrawn_mask hin m).1 (hdrawn p hin)
    exact hp.resolve_left fun h => (isDrawn_iff_ne_empty hin).1 h hempty
  · intro hmaskable p hin
    have hin : p.1 < d.version.width ∧ p.2 < d.version.width := hin
    by_cases hempty : d.grid.get? p = some .empty
    · exact (isDrawn_mask hin m).2 (.inr (hmaskable p hempty))
    · exact (isDrawn_mask hin m).2 (.inl ((isDrawn_iff_ne_empty hin).2 hempty))

/-! ### One trial -/

/-- The symbol of a draft and a mask. -/
def maskedSymbol (d : Draft) (m : Mask) : Symbol :=
  ⟨d.version, d.level, m, (d.applyMask m).grid.map fun cell => cell.colour?.getD .light⟩

/-- **A masked draft is a symbol** or is not, whichever the mask. -/
theorem toSymbol_applyMask (h : d.Maskable) (m : Mask) : (d.applyMask m).toSymbol = .ok (d.maskedSymbol m) :=
  toSymbol_eq_ok.2 ⟨m, rfl, (isComplete_applyMask d m).2 h, rfl⟩

/-- An empty cell elsewhere makes every trial fail. -/
theorem toSymbol_applyMask_of_not (h : ¬d.Maskable) (m : Mask) :
    (d.applyMask m).toSymbol = .error .incompleteSymbol := by
  cases hsymbol : (d.applyMask m).toSymbol with
  | error e => rw [toSymbol_eq_error hsymbol]
  | ok q =>
    obtain ⟨-, -, hcomplete, -⟩ := toSymbol_eq_ok.1 hsymbol
    exact absurd ((isComplete_applyMask d m).1 hcomplete) h

/-- A trial is the symbol and its penalty. -/
theorem run_maskable (h : d.Maskable) (m : Mask) :
    Trial.run d m = .ok ⟨d.maskedSymbol m, penalty (d.maskedSymbol m).grid⟩ := by
  rw [Trial.run, toSymbol_applyMask h]
  rfl

end Draft

open Draft

/-! ### All trials -/

/-- Thirty cells of format information are thirty different ones. -/
theorem nodup_formatCopies (v : Version) : (formatMain ++ formatSide v.width).Nodup :=
  (List.nodup_append.1 (nodup_formatPlaces v.width_bounds.1)).1

/-- A draft that no mask completes has an empty cell somewhere else. -/
theorem not_maskable_iff {d : Draft} :
    ¬d.Maskable ↔ ∃ p, d.grid.get? p = some .empty ∧ p ∉ formatMain ++ formatSide d.width ∧
      p ≠ darkPlace d.width := by
  simp only [Draft.Maskable, formatPlaces, List.mem_append, List.mem_singleton, not_forall, not_or,
    exists_prop, ne_eq]

/-- **The search fails with its first trial.** -/
theorem selectMask_of_failure {d : Draft} {e : Error} (h : ∀ m, (d.applyMask m).toSymbol = .error e) :
    selectMask d = ⟨.error e, []⟩ := by
  obtain ⟨first, rest, hall⟩ : ∃ first rest, Mask.all = first :: rest := ⟨_, _, rfl⟩
  unfold selectMask
  rw [hall, tryMasks, Trial.run, h first]
  rfl

/-- **The best mask of any draft.**  Whatever a draft holds, the search fails exactly when some
cell is empty that is neither one of the thirty cells of the format information nor the dark
module.  Otherwise the draft is a symbol with every mask, and the search returns the one with
the lowest penalty, of several the one with the lowest index. -/
theorem selectMask_firstBest (d : Draft) :
    (formatMain ++ formatSide d.width).Nodup ∧ (formatMain ++ formatSide d.width).length = 30 ∧
    ((selectMask d).result = .error .incompleteSymbol ↔
      ∃ p, d.grid.get? p = some .empty ∧ p ∉ formatMain ++ formatSide d.width ∧ p ≠ darkPlace d.width) ∧
    ((selectMask d).result ≠ .error .incompleteSymbol → ∃ m q,
      (selectMask d).result = .ok q ∧ (d.applyMask m).toSymbol = .ok q ∧
      ∀ m', ∃ q', (d.applyMask m').toSymbol = .ok q' ∧ penalty q.grid ≤ penalty q'.grid ∧
        (m'.index < m.index → penalty q.grid < penalty q'.grid)) := by
  have hfail : ¬d.Maskable → (selectMask d).result = .error .incompleteSymbol := fun h => by
    rw [selectMask_of_failure (toSymbol_applyMask_of_not h)]
  have hfound : d.Maskable → ∃ m, (selectMask d).result = .ok (d.maskedSymbol m) ∧
      Mask.FirstBest (fun m => penalty (d.maskedSymbol m).grid) Mask.all m :=
    fun h => selectMask_of_trials (run_maskable h)
  refine ⟨nodup_formatCopies d.version, rfl, ?_, fun hok => ?_⟩
  · rw [← not_maskable_iff]
    refine ⟨fun herror hmaskable => ?_, hfail⟩
    obtain ⟨m, hresult, -⟩ := hfound hmaskable
    rw [hresult] at herror
    cases herror
  · have hmaskable : d.Maskable := by
      by_contra h
      exact hok (hfail h)
    obtain ⟨m, hresult, hbest⟩ := hfound hmaskable
    refine ⟨m, _, hresult, toSymbol_applyMask hmaskable m, fun m' => ?_⟩
    exact ⟨_, toSymbol_applyMask hmaskable m', hbest.le m' m'.mem_all, hbest.lt m' m'.mem_all⟩

/-- A draft that another mask was applied to before, and one that nothing was drawn on. -/
theorem selectMask_firstBest_remasked :
    (∃ m q, (selectMask ((blank (.ofIndex 0) .low).run [.patterns, .payload [], .mask ⟨3⟩])).result =
        .ok q ∧
      (((blank (.ofIndex 0) .low).run [.patterns, .payload [], .mask ⟨3⟩]).applyMask m).toSymbol =
        .ok q) ∧
    (selectMask (blank (.ofIndex 0) .low)).result = .error .incompleteSymbol := by
  constructor
  · have hcomplete := (isComplete_run (.ofIndex 0) .low [.patterns, .payload [], .mask ⟨3⟩]).2
      ⟨by decide, [], by decide⟩
    obtain ⟨-, -, hfail, hfound⟩ :=
      selectMask_firstBest ((blank (.ofIndex 0) .low).run [.patterns, .payload [], .mask ⟨3⟩])
    have hok := hfail.not.2 fun hempty => not_maskable_iff.2 hempty (maskable_of_isComplete hcomplete)
    obtain ⟨m, q, hresult, hsymbol, -⟩ := hfound hok
    exact ⟨m, q, hresult, hsymbol⟩
  · obtain ⟨-, -, hfail, -⟩ := selectMask_firstBest (blank (.ofIndex 0) .low)
    exact hfail.2 ⟨(0, 0), Grid.get?_fill (by decide), by decide, by decide⟩

end QRCode
