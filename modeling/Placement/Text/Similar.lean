/-!
Words that are close to each other. What two words share is found in pieces: the longest run of
characters that stands in both, then in the same way the pieces on its left and on its right.
-/

namespace Placement

/-- A run of characters that stands in two texts, by its start in each and its length. -/
structure SharedRun where
  first : Nat
  second : Nat
  length : Nat
  deriving DecidableEq, Repr

/-- The length of the common beginning of two texts. -/
def commonLength : List Char → List Char → Nat
  | c :: s, d :: t => if c = d then commonLength s t + 1 else 0
  | _, _ => 0

theorem commonLength_le (s t : List Char) : commonLength s t ≤ s.length := by
  fun_induction commonLength s t with
  | case1 s t d ih => exact Nat.succ_le_succ ih
  | case2 => exact Nat.zero_le _
  | case3 => exact Nat.zero_le _

/-- The longest beginning of the first text that stands in the second one. Of several places the
first counts. -/
def runAtStart (s : List Char) : List Char → SharedRun
  | [] => ⟨0, 0, 0⟩
  | d :: t =>
    let later := runAtStart s t
    let length := commonLength s (d :: t)
    if later.length ≤ length then ⟨0, 0, length⟩ else ⟨0, later.second + 1, later.length⟩

theorem runAtStart_first (s t : List Char) : (runAtStart s t).first = 0 := by
  cases t with
  | nil => rfl
  | cons d t =>
    simp only [runAtStart]
    split <;> rfl

theorem length_runAtStart_le (s t : List Char) : (runAtStart s t).length ≤ s.length := by
  induction t with
  | nil => exact Nat.zero_le _
  | cons d t ih =>
    simp only [runAtStart]
    split
    · exact commonLength_le s (d :: t)
    · exact ih

/-- The longest run that stands in both texts. Of several the one that starts first in the first
text counts, and then the one that starts first in the second. -/
def longestRun : List Char → List Char → SharedRun
  | [], _ => ⟨0, 0, 0⟩
  | c :: s, t =>
    let here := runAtStart (c :: s) t
    let later := longestRun s t
    if later.length ≤ here.length then here else { later with first := later.first + 1 }

/-- The longest run lies within the first text. -/
theorem longestRun_le (s t : List Char) :
    (longestRun s t).first + (longestRun s t).length ≤ s.length := by
  induction s with
  | nil => exact Nat.le_refl 0
  | cons c s ih =>
    simp only [longestRun]
    split
    · have within := length_runAtStart_le (c :: s) t
      rw [runAtStart_first]
      omega
    · simp only [List.length_cons]
      omega

/-- How many characters two texts share: those of the longest run and those that the texts share
on its left and on its right. -/
def sharedLength (s t : List Char) : Nat :=
  let run := longestRun s t
  if run.length = 0 then 0
  else
    sharedLength (s.take run.first) (t.take run.second) + run.length +
      sharedLength (s.drop (run.first + run.length)) (t.drop (run.second + run.length))
termination_by s.length
decreasing_by
  all_goals
    have within := longestRun_le s t
    have positive : (longestRun s t).length ≠ 0 := by assumption
    simp only [List.length_take, List.length_drop]
    omega

/-- A word is close to a known one if six tenths of their characters belong to what they share. -/
def isClose (known word : String) : Bool :=
  3 * (known.length + word.length) ≤ 10 * sharedLength known.toList word.toList

/-- The known words that a word is close to, in the order of their characters. -/
def closeTo (word : String) (known : List String) : List String :=
  (known.filter (isClose · word)).mergeSort (· ≤ ·)

end Placement
