import Mathlib.Data.List.TakeWhile
import Mathlib.Data.List.Infix

/-!
# Strings that end at the first zero

A C string is a stretch of memory read up to its first zero. The memory is a list over any type with a
zero, and `cstr` the part of it that the string functions see.
-/

namespace CString

variable {α : Type*} [DecidableEq α]

/-! ## Searching -/

/-- The first position at which `needle` stands in `s`. -/
def strstr (needle : List α) : List α → Option ℕ
  | [] => if needle = [] then some 0 else none
  | a :: s => if needle <+: a :: s then some 0 else (strstr needle s).map (· + 1)

/-- A stretch without the first character of the needle is skipped. -/
theorem strstr_append {a : α} {s : List α} (h : a ∉ s) (needle t : List α) :
    strstr (a :: needle) (s ++ t) = (strstr (a :: needle) t).map (s.length + ·) := by
  induction s with
  | nil => simp
  | cons b s ih =>
    have hb : ¬a :: needle <+: b :: (s ++ t) := fun hp => by
      simp [(List.cons_prefix_cons.mp hp).1] at h
    rw [List.cons_append, strstr, if_neg hb, ih fun hs => h (List.mem_cons_of_mem _ hs)]
    cases strstr (a :: needle) t with
    | none => rfl
    | some i => simp; omega

@[simp] theorem strstr_cons_append (a : α) (needle t : List α) :
    strstr (a :: needle) (a :: (needle ++ t)) = some 0 := by
  simp [strstr]

/-- The second character of the needle never comes. -/
theorem strstr_pair_eq_none {a b : α} {s : List α} (h : b ∉ s) : strstr [a, b] s = none := by
  induction s with
  | nil => rfl
  | cons c s ih =>
    have hp : ¬[a, b] <+: c :: s := fun hp => h (hp.subset (by simp))
    rw [strstr, if_neg hp, ih fun hs => h (List.mem_cons_of_mem _ hs)]
    rfl

/-! ## The characters in front of the first zero -/

variable [Zero α]

/-- What the string functions see of the memory. -/
def cstr (mem : List α) : List α := mem.takeWhile (· ≠ 0)

def strlen (mem : List α) : ℕ := (cstr mem).length

theorem take_strlen (mem : List α) : mem.take (strlen mem) = cstr mem :=
  (List.prefix_iff_eq_take.mp (List.takeWhile_prefix _)).symm

@[simp] theorem cstr_zero_cons (mem : List α) : cstr (0 :: mem) = [] := by
  simp [cstr]

theorem cstr_append {s : List α} (h : ∀ a ∈ s, a ≠ 0) (mem : List α) :
    cstr (s ++ mem) = s ++ cstr mem :=
  List.takeWhile_append_of_pos (by simpa using h)

end CString
