/-
# The search for a mask

`select_best_mask`, one trial after the other.

The search keeps one trial: the first best of those it has run
(`Mask.FirstBest`).  Masks are tried by increasing index, and a later trial replaces
the one that is kept only if it is strictly better; so each trial keeps this
(`Mask.FirstBest.concat`), and after all eight the search ends with the mask of the
lowest penalty, and of several with the lowest index (`selectMask_of_trials`).
-/

import QRCode.Proofs.Drawing
import QRCode.Proofs.Encoding
import QRCode.BestMask

namespace QRCode

/-! ### The first best mask -/

/-- The mask with the lowest score of some masks, and of several the one with the
lowest index. -/
structure Mask.FirstBest (points : Mask → Nat) (masks : List Mask) (best : Mask) : Prop where
  mem : best ∈ masks
  le : ∀ m ∈ masks, points best ≤ points m
  lt : ∀ m ∈ masks, m.index < best.index → points best < points m

namespace Mask.FirstBest

variable {points : Mask → Nat} {masks : List Mask} {best next : Mask}

/-- There is no other. -/
theorem unique {best' : Mask} (h : FirstBest points masks best) (h' : FirstBest points masks best') :
    best = best' := by
  have hle := h.le _ h'.mem
  have hle' := h'.le _ h.mem
  rcases Nat.lt_trichotomy best.index best'.index with hlt | heq | hlt
  · have hless := h'.lt _ h.mem hlt
    omega
  · exact congrArg Mask.mk (Fin.ext heq)
  · have hless := h.lt _ h'.mem hlt
    omega

/-- A single trial is the best of its kind. -/
theorem singleton (points : Mask → Nat) (m : Mask) : FirstBest points [m] m where
  mem := List.mem_singleton_self m
  le m' hm' := by rw [List.mem_singleton.1 hm']
  lt m' hm' hlt := by
    rw [List.mem_singleton.1 hm'] at hlt
    exact absurd hlt (Nat.lt_irrefl _)

/-- **One mask more**, with a higher index, has to be strictly better. -/
theorem concat (h : FirstBest points masks best) (hlast : ∀ m ∈ masks, m.index < next.index) :
    FirstBest points (masks ++ [next]) (if points next < points best then next else best) := by
  split
  · rename_i hbetter
    refine ⟨by simp, ?_, ?_⟩
    · intro m hm
      rcases List.mem_append.1 hm with hm | hm
      · exact Nat.le_trans (Nat.le_of_lt hbetter) (h.le m hm)
      · rw [List.mem_singleton.1 hm]
    · intro m hm hlt
      rcases List.mem_append.1 hm with hm | hm
      · exact Nat.lt_of_lt_of_le hbetter (h.le m hm)
      · rw [List.mem_singleton.1 hm] at hlt
        exact absurd hlt (Nat.lt_irrefl _)
  · rename_i hworse
    refine ⟨List.mem_append_left _ h.mem, ?_, ?_⟩
    · intro m hm
      rcases List.mem_append.1 hm with hm | hm
      · exact h.le m hm
      · rw [List.mem_singleton.1 hm]
        exact Nat.le_of_not_lt hworse
    · intro m hm hlt
      rcases List.mem_append.1 hm with hm | hm
      · exact h.lt m hm hlt
      · rw [List.mem_singleton.1 hm] at hlt
        exact absurd hlt (Nat.lt_asymm (hlast best h.mem))

end Mask.FirstBest

/-- Masks are tried by increasing index. -/
theorem Mask.pairwise_all : Mask.all.Pairwise fun m m' => m.index < m'.index := by decide

/-! ### Trials -/

/-- **Trials that all succeed are compared one after the other.** -/
theorem tryMasks_eq {d : Draft} {trial : Mask → Trial} (h : ∀ m, Trial.run d m = .ok (trial m))
    (best : Option Trial) (masks : List Mask) :
    tryMasks d best masks =
      ⟨.ok (masks.foldl (fun best m => some (Trial.better best (trial m))) best),
        masks.map fun m => .scored m (trial m).points⟩ := by
  induction masks generalizing best with
  | nil => rfl
  | cons m masks ih =>
    show (Traced.ofExcept (Trial.run d m) >>= fun next =>
      Traced.emit (.scored m next.points) >>= fun _ =>
        tryMasks d (some (Trial.better best next)) masks) = _
    rw [h m, Traced.ofExcept, Traced.ok_bind]
    simp only [Traced.emit_bind, ih, List.nil_append, List.foldl_cons, List.map_cons]

/-- **Trials by increasing index** keep the first best of all that were run. -/
theorem exists_firstBest {trial : Mask → Trial} {seen rest : List Mask} {best : Mask}
    (hbest : Mask.FirstBest (fun m => (trial m).points) seen best)
    (hsorted : (seen ++ rest).Pairwise fun m m' => m.index < m'.index) :
    ∃ m, rest.foldl (fun best m => some (Trial.better best (trial m))) (some (trial best)) =
        some (trial m) ∧ Mask.FirstBest (fun m => (trial m).points) (seen ++ rest) m := by
  induction rest generalizing seen best with
  | nil => exact ⟨best, rfl, by rwa [List.append_nil]⟩
  | cons next rest ih =>
    have hlast : ∀ m ∈ seen, m.index < next.index := fun m hm =>
      (List.pairwise_append.1 hsorted).2.2 m hm next List.mem_cons_self
    have hassoc : seen ++ next :: rest = seen ++ [next] ++ rest := by simp
    obtain ⟨m, hfold, hm⟩ := ih (hbest.concat hlast) (hassoc ▸ hsorted)
    refine ⟨m, ?_, hassoc ▸ hm⟩
    rw [List.foldl_cons, ← hfold, Trial.better]
    congr 2
    split <;> rfl

/-- **When all trials succeed**, the search ends with the first best of them. -/
theorem selectMask_of_trials {d : Draft} {trial : Mask → Trial} (h : ∀ m, Trial.run d m = .ok (trial m)) :
    ∃ m, (selectMask d).result = .ok (trial m).symbol ∧
      Mask.FirstBest (fun m => (trial m).points) Mask.all m := by
  obtain ⟨first, rest, hall⟩ : ∃ first rest, Mask.all = first :: rest := ⟨_, _, rfl⟩
  have hfirst : Mask.FirstBest (fun m => (trial m).points) [first] first := .singleton _ first
  obtain ⟨m, hfold, hm⟩ := exists_firstBest hfirst (hall ▸ Mask.pairwise_all)
  refine ⟨m, ?_, hall ▸ hm⟩
  unfold selectMask
  rw [Traced.result_bind, tryMasks_eq h, hall, List.foldl_cons, Trial.better, hfold]
  rfl

/-- **When all trials succeed**, all of them are told, in the order of the masks. -/
theorem events_selectMask {d : Draft} {trial : Mask → Trial} (h : ∀ m, Trial.run d m = .ok (trial m)) :
    (selectMask d).events = Mask.all.map fun m => .scored m (trial m).points := by
  unfold selectMask
  rw [tryMasks_eq h, Traced.ok_bind]
  cases Mask.all.foldl (fun best m => some (Trial.better best (trial m))) none <;> exact List.append_nil _

namespace Draft

/-- A drawn draft, finished with a mask and scored. -/
def trial (v : Version) (level : Level) (bits : List Bool) (m : Mask) : Trial :=
  ⟨drawnSymbol v level bits m, penalty (drawnSymbol v level bits m).grid⟩

/-- A trial on a drawn draft never fails. -/
theorem run_drawn (v : Version) (level : Level) (bits : List Bool) (m : Mask) :
    Trial.run (drawn v level bits) m = .ok (trial v level bits m) := by
  unfold Trial.run
  rw [toSymbol_masked]
  rfl

/-- **The search ends with the first best of all masks.** -/
theorem selectMask_drawn (v : Version) (level : Level) (bits : List Bool) :
    ∃ m, (selectMask (drawn v level bits)).result = .ok (drawnSymbol v level bits m) ∧
      Mask.FirstBest (fun m => penalty (drawnSymbol v level bits m).grid) Mask.all m :=
  selectMask_of_trials (run_drawn v level bits)

end Draft
end QRCode
