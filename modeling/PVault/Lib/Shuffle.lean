import Mathlib.Data.List.Basic
import Mathlib.Data.List.Perm.Basic
import Mathlib.Logic.Function.Basic

/-!
# Shuffling in place

The shuffle that goes from the last entry to the second and exchanges each with one at or
before it, which is drawn. The draws are a parameter: a draw for position `i` is one of `i + 1`
values, and nothing else is known about it.

* `shuffle_perm`, `shuffle_map` — a shuffle rearranges, and does not look at what it rearranges.
* `shuffle_injective`, `shuffle_surjective` — each rearrangement comes from exactly one sequence
  of draws (`shuffle_bijective`), so uniform draws give a uniform rearrangement.
-/

namespace Shuffle

variable {α β : Type}
variable {l : List α} {i : Nat}

/-- Exchange two entries. -/
def swapAt (l : List α) (i j : Nat) : List α :=
  match l[i]?, l[j]? with
  | some x, some y => (l.set i y).set j x
  | _, _ => l

/-- Exchange the entries `i`, `i - 1`, …, 1, each with the one drawn for it. -/
def shuffle (draw : (i : Nat) → Fin (i + 1)) : Nat → List α → List α
  | 0, l => l
  | i + 1, l => shuffle draw i (swapAt l (i + 1) (draw (i + 1)))

/-! ## One exchange -/

theorem swapAt_eq {j : Nat} (hi : i < l.length) (hj : j < l.length) :
    swapAt l i j = (l.set i l[j]).set j l[i] := by
  rw [swapAt, List.getElem?_eq_getElem hi, List.getElem?_eq_getElem hj]

theorem swapAt_perm (l : List α) (i j : Nat) : (swapAt l i j).Perm l := by
  rw [swapAt]
  split
  · next x y hx hy =>
    obtain ⟨hi, rfl⟩ := List.getElem?_eq_some_iff.mp hx
    obtain ⟨hj, rfl⟩ := List.getElem?_eq_some_iff.mp hy
    exact List.set_set_perm hi hj
  · exact .refl _

theorem swapAt_map (f : α → β) (l : List α) (i j : Nat) :
    swapAt (l.map f) i j = (swapAt l i j).map f := by
  rw [swapAt, swapAt, List.getElem?_map, List.getElem?_map]
  cases l[i]? with
  | none => rfl
  | some x =>
    cases l[j]? with
    | none => rfl
    | some y => simp only [Option.map_some, List.map_set]

theorem getElem?_swapAt {j : Nat} (hi : i < l.length) (hj : j < l.length) (k : Nat) :
    (swapAt l i j)[k]? = if k = j then l[i]? else if k = i then l[j]? else l[k]? := by
  rw [swapAt_eq hi hj, List.getElem?_set, List.length_set]
  by_cases hkj : k = j
  · subst hkj
    rw [if_pos rfl, if_pos hj, if_pos rfl, List.getElem?_eq_getElem hi]
  · rw [if_neg (Ne.symm hkj), if_neg hkj, List.getElem?_set]
    by_cases hki : k = i
    · subst hki
      rw [if_pos rfl, if_pos hi, if_pos rfl, List.getElem?_eq_getElem hj]
    · rw [if_neg (Ne.symm hki), if_neg hki]

/-! ## All of them -/

variable {draw draw' : (i : Nat) → Fin (i + 1)}

theorem shuffle_perm (i : Nat) : ∀ l : List α, (shuffle draw i l).Perm l := by
  induction i with
  | zero => exact fun _ => .refl _
  | succ i ih => exact fun l => (ih _).trans (swapAt_perm _ _ _)

/-- A shuffle moves positions, whatever lies there. -/
theorem shuffle_map (f : α → β) (i : Nat) : ∀ l : List α,
    shuffle draw i (l.map f) = (shuffle draw i l).map f := by
  induction i with
  | zero => exact fun _ => rfl
  | succ i ih =>
    intro l
    rw [shuffle, shuffle, swapAt_map, ih]

/-- Entries past the first one exchanged stay. -/
theorem getElem?_shuffle {k : Nat} (hk : i < k) : ∀ l : List α, i < l.length →
    (shuffle draw i l)[k]? = l[k]? := by
  induction i with
  | zero => exact fun _ _ => rfl
  | succ i ih =>
    intro l hl
    have hdraw := (draw (i + 1)).isLt
    have hlen := (swapAt_perm l (i + 1) (draw (i + 1))).length_eq
    rw [shuffle, ih (by omega) _ (by omega), getElem?_swapAt hl (by omega), if_neg (by omega),
      if_neg (by omega)]

/-- The last entry is the one drawn for it. -/
theorem getElem?_shuffle_succ (hl : i + 1 < l.length) :
    (shuffle draw (i + 1) l)[i + 1]? = l[(draw (i + 1)).val]? := by
  have hdraw := (draw (i + 1)).isLt
  have hlen := (swapAt_perm l (i + 1) (draw (i + 1))).length_eq
  rw [shuffle, getElem?_shuffle (Nat.lt_succ_self i) _ (by omega), getElem?_swapAt hl (by omega)]
  split
  · next heq => rw [← heq]
  · rw [if_pos rfl]

theorem shuffle_congr (h : ∀ k ≤ i, draw k = draw' k) : ∀ l : List α,
    shuffle draw i l = shuffle draw' i l := by
  induction i with
  | zero => exact fun _ => rfl
  | succ i ih =>
    intro l
    rw [shuffle, shuffle, h (i + 1) (Nat.le_refl _)]
    exact ih (fun k hk => h k (Nat.le_succ_of_le hk)) _

/-- **The draws can be read off the result**, from the last entry on. -/
theorem shuffle_injective : ∀ {l : List α}, l.Nodup → i < l.length →
    shuffle draw i l = shuffle draw' i l → ∀ k ≤ i, draw k = draw' k := by
  induction i with
  | zero =>
    intro l _ _ _ k hk
    obtain rfl := Nat.le_zero.mp hk
    exact Subsingleton.elim (_ : Fin 1) _
  | succ i ih =>
    intro l hnodup hl heq
    have hfirst : draw (i + 1) = draw' (i + 1) := by
      have hlast := congrArg (fun m : List α => m[i + 1]?) heq
      simp only [getElem?_shuffle_succ hl] at hlast
      have hdraw := (draw (i + 1)).isLt
      exact Fin.ext ((List.getElem?_inj (by omega) hnodup).mp hlast)
    intro k hk
    rcases Nat.lt_or_eq_of_le hk with hlt | rfl
    · rw [shuffle, shuffle, hfirst] at heq
      have hperm := swapAt_perm l (i + 1) (draw' (i + 1))
      exact ih (hperm.nodup_iff.mpr hnodup) (by rw [hperm.length_eq]; omega) heq k
        (Nat.le_of_lt_succ hlt)
    · exact hfirst

/-- **Every rearrangement is drawn**, if what the shuffle does not touch is in place. -/
theorem shuffle_surjective : ∀ {l m : List α}, l.Nodup → i < l.length → m.Perm l →
    (∀ k, i < k → m[k]? = l[k]?) → ∃ draw : (i : Nat) → Fin (i + 1), shuffle draw i l = m := by
  induction i with
  | zero =>
    intro l m _ hl hperm htail
    refine ⟨fun _ => 0, ?_⟩
    -- only the first entry is left
    obtain ⟨y, l, rfl⟩ := List.exists_cons_of_ne_nil (List.length_pos_iff.mp hl)
    cases m with
    | nil => exact absurd hperm.symm List.not_perm_cons_nil
    | cons x m =>
      obtain rfl : m = l := List.ext_getElem? fun k => htail (k + 1) (Nat.succ_pos k)
      have hone : [x].Perm [y] := (List.perm_append_right_iff m).mp hperm
      rw [List.singleton_perm_singleton.mp hone, shuffle]
  | succ i ih =>
    intro l m hnodup hl hperm htail
    have hlm : i + 1 < m.length := by rwa [hperm.length_eq]
    obtain ⟨j, hj, hval⟩ := List.mem_iff_getElem.mp (hperm.mem_iff.mp (List.getElem_mem hlm))
    have hval' : l[j]? = m[i + 1]? := by
      rw [List.getElem?_eq_getElem hj, List.getElem?_eq_getElem hlm, hval]
    have hle : j ≤ i + 1 := by
      by_contra hgt
      have hsame := (htail j (by omega)).trans hval'
      have hj' : j < m.length := by rwa [hperm.length_eq]
      have := (List.getElem?_inj hj' (hperm.nodup_iff.mpr hnodup)).mp hsame
      omega
    have hswap := swapAt_perm l (i + 1) j
    obtain ⟨draw, hdraw⟩ := ih (hswap.nodup_iff.mpr hnodup) (by rw [hswap.length_eq]; omega)
      (hperm.trans hswap.symm) fun k hk => by
        rw [getElem?_swapAt hl hj]
        by_cases hki : k = i + 1
        · subst hki
          rw [if_pos rfl, hval']
          split
          · next heq => rw [← hval', ← heq]
          · rfl
        · rw [if_neg (by omega), if_neg hki]
          exact htail k (by omega)
    refine ⟨Function.update draw (i + 1) ⟨j, Nat.lt_succ_of_le hle⟩, ?_⟩
    rw [shuffle, Function.update_self, ← hdraw]
    refine shuffle_congr (fun k hk => ?_) _
    exact Function.update_of_ne (by omega) _ draw

/-- Draws for the entries of a list, seen as draws for all positions. -/
def extend {n : Nat} (draw : (k : Fin n) → Fin (k + 1)) (i : Nat) : Fin (i + 1) :=
  if h : i < n then draw ⟨i, h⟩ else 0

/-- **Draws and rearrangements correspond.** -/
theorem shuffle_bijective {n : Nat} (hlen : l.length = n) (hnodup : l.Nodup) :
    Function.Bijective fun draw : (k : Fin n) → Fin (k + 1) =>
      (⟨shuffle (extend draw) (n - 1) l, shuffle_perm _ l⟩ : { m : List α // m.Perm l }) := by
  by_cases hempty : n = 0
  · subst hempty
    obtain rfl := List.length_eq_zero_iff.mp hlen
    refine ⟨fun _ _ _ => funext fun k => k.elim0, fun ⟨m, hm⟩ => ⟨fun k => k.elim0, ?_⟩⟩
    exact Subtype.ext hm.eq_nil.symm
  have hlast : n - 1 < l.length := by omega
  constructor
  · intro draw draw' heq
    have hall := shuffle_injective hnodup hlast (Subtype.mk.inj heq)
    funext k
    have hk := hall k.val (by have := k.isLt; omega)
    rwa [extend, extend, dif_pos k.isLt, dif_pos k.isLt] at hk
  · rintro ⟨m, hm⟩
    obtain ⟨draw, hdraw⟩ := shuffle_surjective hnodup hlast hm fun k hk => by
      rw [List.getElem?_eq_none (by rw [hm.length_eq]; omega), List.getElem?_eq_none (by omega)]
    refine ⟨fun k => draw k.val, Subtype.ext (.trans (shuffle_congr (fun k hk => ?_) l) hdraw)⟩
    rw [extend, dif_pos (by omega)]

end Shuffle
