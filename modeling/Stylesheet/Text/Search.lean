/-!
# Binary search

Searching in an array whose elements stand in order. What is looked for is given by how an element
compares to it: `.lt` is said of an element that is below.

* `binarySearch` finds an element that compares as equal, or the index at which one would have to
  stand.
* `lastNotAbove` is the index of the last element that is not above what is looked for.
* `lastNotAbove_turns`: there an element that is not above is followed by one that is.
* `lastNotAbove_eq`: where those that are above come last, it is the last of the others.
-/

namespace Stylesheet.Text

variable {α : Type}

/-- Halves the window of `size` elements that starts at `base` until one element is left. The upper
half is taken unless its first element is above what is looked for. -/
def narrow (order : α → Ordering) (as : Array α) (base size : Nat) (hpos : 0 < size)
    (hsize : base + size ≤ as.size) : Fin as.size :=
  if h : 1 < size then
    let half := size / 2
    if order as[base + half] = .gt then narrow order as base (size - half) (by omega) (by omega)
    else narrow order as (base + half) (size - half) (by omega) (by omega)
  else ⟨base, by omega⟩
termination_by size

/-- The index of an element that compares as equal, or the index at which one would have to be put
in. -/
def binarySearch (order : α → Ordering) (as : Array α) : Except (Fin (as.size + 1)) (Fin as.size) :=
  if h : 0 < as.size then
    let i := narrow order as 0 as.size h (by omega)
    match order as[i] with
    | .eq => .ok i
    | .lt => .error i.succ
    | .gt => .error i.castSucc
  else .error 0

/-- Index of the last element that is not above what is looked for, or 0 when all are. -/
def lastNotAbove (order : α → Ordering) (as : Array α) (h : 0 < as.size) : Fin as.size :=
  match binarySearch order as with
  | .ok i => i
  | .error i => ⟨i - 1, by omega⟩

/-- The element at `i` is not above what is looked for, and the one behind it is. -/
def Turns (order : α → Ordering) (as : Array α) (i : Nat) : Prop :=
  (∀ a ∈ as[i]?, order a ≠ .gt) ∧ ∀ a ∈ as[i + 1]?, order a = .gt

theorem forall_mem_getElem? {as : Array α} {i : Nat} (h : i < as.size) {p : α → Prop} :
    (∀ a ∈ as[i]?, p a) ↔ p as[i] := by
  simp [Array.getElem?_eq_getElem h]

/-- The window is left with an element that is not above, whatever the order of the elements is. The
end of the window may stand one behind an element that is above, since half of an odd number is
rounded down. -/
theorem narrow_turns {order : α → Ordering} {as : Array α} {base size : Nat} (hpos : 0 < size)
    (hsize : base + size ≤ as.size) (hbase : ∀ a ∈ as[base]?, order a ≠ .gt)
    (hend : ∃ j, base < j ∧ j ≤ base + size ∧ base + size ≤ j + 1 ∧
      ∀ a ∈ as[j]?, order a = .gt) :
    Turns order as (narrow order as base size hpos hsize) := by
  fun_induction narrow order as base size hpos hsize with
  | case1 base size hpos hsize hlong half hgt ih =>
    exact ih hbase ⟨base + half, by omega, by omega, by omega,
      (forall_mem_getElem? (by omega)).mpr hgt⟩
  | case2 base size hpos hsize hlong half hgt ih =>
    obtain ⟨j, hj, hle, hge, habove⟩ := hend
    -- An element that is above is not the one in the middle.
    have hne : j ≠ base + half := by
      rintro rfl
      exact hgt ((forall_mem_getElem? (by omega)).mp habove)
    exact ih ((forall_mem_getElem? (by omega)).mpr hgt) ⟨j, by omega, by omega, by omega, habove⟩
  | case3 base size hpos hsize hlong =>
    obtain ⟨j, hj, hle, hge, habove⟩ := hend
    obtain rfl : j = base + 1 := by omega
    exact ⟨hbase, habove⟩

/-- Where the first element is not above, the search ends at an element that is not above, and the
one behind it is above. -/
theorem lastNotAbove_turns {order : α → Ordering} {as : Array α} (h : 0 < as.size)
    (hfirst : order as[0] ≠ .gt) : Turns order as (lastNotAbove order as h) := by
  have hsize : 0 + as.size ≤ as.size := Nat.le_of_eq (Nat.zero_add _)
  have hturns : Turns order as (narrow order as 0 as.size h hsize) :=
    narrow_turns h hsize ((forall_mem_getElem? h).mpr hfirst)
      ⟨as.size, h, by omega, by omega, by simp⟩
  have hnot := (forall_mem_getElem? (Fin.isLt _)).mp hturns.1
  have hfound : (lastNotAbove order as h : Nat) = narrow order as 0 as.size h hsize := by
    rw [lastNotAbove, binarySearch, dif_pos h]
    cases horder : order as[(narrow order as 0 as.size h hsize : Nat)] with
    | eq => simp [horder]
    | lt => simp [horder]
    | gt => exact absurd horder hnot
  rwa [hfound]

/-- Where the elements that are above come last, the search ends at the last of the others. -/
theorem lastNotAbove_eq {order : α → Ordering} {as : Array α} {front back : List α} {a : α}
    (has : as.toList = front ++ a :: back) (hfront : ∀ b ∈ front ++ [a], order b ≠ .gt)
    (hback : ∀ b ∈ back, order b = .gt) (h : 0 < as.size) :
    (lastNotAbove order as h : Nat) = front.length := by
  have hget : ∀ i, as[i]? = ((front ++ [a]) ++ back)[i]? := fun i => by
    rw [← Array.getElem?_toList, has, List.append_assoc, List.singleton_append]
  have hlow : ∀ i ≤ front.length, ∀ b ∈ as[i]?, order b ≠ .gt := by
    intro i hi b hb
    rw [hget, List.getElem?_append_left (by simp; omega)] at hb
    exact hfront b (List.mem_of_getElem? hb)
  have hhigh : ∀ i, front.length < i → ∀ b ∈ as[i]?, order b = .gt := by
    intro i hi b hb
    rw [hget, List.getElem?_append_right (by simp; omega)] at hb
    exact hback b (List.mem_of_getElem? hb)
  have hturns := lastNotAbove_turns h ((forall_mem_getElem? h).mp (hlow 0 (Nat.zero_le _)))
  have hlen : as.size = front.length + 1 + back.length := by
    rw [← Array.length_toList, has, List.length_append, List.length_cons]
    omega
  generalize lastNotAbove order as h = i at hturns ⊢
  refine Nat.le_antisymm (Nat.not_lt.mp fun hlt => ?_) (Nat.not_lt.mp fun hlt => ?_)
  · have hget := Array.getElem?_eq_getElem i.isLt
    exact hturns.1 _ hget (hhigh i hlt _ hget)
  · have hget := Array.getElem?_eq_getElem (show (i : Nat) + 1 < as.size by omega)
    exact hlow _ hlt _ hget (hturns.2 _ hget)

end Stylesheet.Text
