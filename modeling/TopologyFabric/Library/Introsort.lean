import TopologyFabric.Library.Sorting

/-!
# Introsort

The sort of common standard libraries: ranges of more than 16 elements are partitioned around the
median of three of them, and what is left is sorted by insertion. It is stable on short lists only.
The change to heap sort on deep recursion is left out; the fuel ends the recursion.

## Main result

- `isSort_introsort`: introsort is a sort, and stable on lists of up to 16 elements
-/

namespace TopologyFabric.Library

variable {α κ : Type*}

section Definitions

variable (less : α → α → Bool)

/-- Whether the element at `i` comes before that at `j`. -/
def lessAt (xs : Array α) (i j : ℕ) : Bool :=
  match xs[i]?, xs[j]? with
  | some a, some b => less a b
  | _, _ => false

/-- The median of the elements at `a`, `b` and `c` changes places with that at `first`. -/
def moveMedianToFirst (xs : Array α) (first a b c : ℕ) : Array α :=
  let median :=
    if lessAt less xs a b then
      if lessAt less xs b c then b else if lessAt less xs a c then c else a
    else if lessAt less xs a c then a else if lessAt less xs b c then c else b
  xs.swapIfInBounds first median

/-- The first index from `i` up whose element does not come before the pivot. -/
def scanUp (xs : Array α) (pivot : ℕ) : ℕ → ℕ → ℕ
  | 0, i => i
  | n + 1, i => if lessAt less xs i pivot then scanUp xs pivot n (i + 1) else i

/-- The first index from `j` down whose element does not come after the pivot. -/
def scanDown (xs : Array α) (pivot : ℕ) : ℕ → ℕ → ℕ
  | 0, j => j
  | n + 1, j => if lessAt less xs pivot j then scanDown xs pivot n (j - 1) else j

/-- Partition the range around the pivot; the index is where the second part begins. -/
def unguardedPartition (pivot : ℕ) : ℕ → Array α → ℕ → ℕ → Array α × ℕ
  | 0, xs, first, _ => (xs, first)
  | n + 1, xs, first, last =>
    let i := scanUp less xs pivot xs.size first
    let j := scanDown less xs pivot xs.size (last - 1)
    if i < j then unguardedPartition pivot n (xs.swapIfInBounds i j) (i + 1) j else (xs, i)

/-- Partition the range until its parts have at most 16 elements. -/
def introsortLoop : ℕ → Array α → ℕ → ℕ → Array α
  | 0, xs, _, _ => xs
  | n + 1, xs, first, last =>
    if 16 < last - first then
      let xs := moveMedianToFirst less xs first (first + 1) (first + (last - first) / 2) (last - 1)
      let (xs, cut) := unguardedPartition less first xs.size xs (first + 1) last
      introsortLoop n (introsortLoop n xs cut last) first cut
    else xs

def introsort (xs : List α) : List α :=
  (introsortLoop less xs.length xs.toArray 0 xs.length).toList.insertionSort
    fun a b => less b a = false

end Definitions

/-! ## Introsort sorts -/

section Sorts

variable {less : α → α → Bool}

theorem swapIfInBounds_perm (xs : Array α) (i j : ℕ) : (xs.swapIfInBounds i j).Perm xs := by
  rw [Array.swapIfInBounds_def]
  split_ifs
  · exact Array.swap_perm ..
  · exact .refl _
  · exact .refl _

theorem unguardedPartition_perm (pivot n : ℕ) (xs : Array α) (first last : ℕ) :
    (unguardedPartition less pivot n xs first last).1.Perm xs := by
  induction n generalizing xs first last with
  | zero => exact .refl _
  | succ n ih =>
    simp only [unguardedPartition]
    split_ifs
    · exact (ih ..).trans (swapIfInBounds_perm ..)
    · exact .refl _

theorem introsortLoop_perm (n : ℕ) (xs : Array α) (first last : ℕ) :
    (introsortLoop less n xs first last).Perm xs := by
  induction n generalizing xs first last with
  | zero => exact .refl _
  | succ n ih =>
    simp only [introsortLoop]
    split_ifs
    · exact (ih ..).trans <| (ih ..).trans <|
        (unguardedPartition_perm ..).trans (swapIfInBounds_perm ..)
    · exact .refl _

theorem introsortLoop_short {n first last : ℕ} (h : last - first ≤ 16) (xs : Array α) :
    introsortLoop less n xs first last = xs := by
  cases n with
  | zero => rfl
  | succ n => rw [introsortLoop, if_neg (not_lt.mpr h)]

theorem isSort_introsort [LinearOrder κ] {key : α → κ}
    (h : ∀ a b, less b a = false ↔ key a ≤ key b) : IsSort key 16 (introsort less) where
  sorts xs := by
    have hsort : SortedBy key (introsortLoop less xs.length xs.toArray 0 xs.length).toList
        (introsort less xs) := SortedBy.insertionSort fun a _ b _ => h a b
    exact ⟨hsort.perm.trans (introsortLoop_perm ..).toList, hsort.sorted⟩
  stable xs hlen k := by
    rw [introsort, introsortLoop_short (by omega)]
    exact (IsSort.insertionSort h 16).stable xs hlen k

end Sorts

end TopologyFabric.Library
