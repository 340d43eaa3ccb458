import Mathlib.Data.List.Sort

/-!
# Sorting by a key, and the order of texts

Where distinct keys never compare as equal, a list sorted by keys that are all apart ascends strictly
and does not depend on the order it had before. Texts are compared character by character, by their
code points. Written as bytes, a character takes one to four of them, and yet nothing changes: the
longer the spelling of a character, the greater its first byte, and among spellings of one length the
bytes stand for the digits of the code point, the highest first. So the first difference of two texts
decides in the same way as the first different byte.
-/

namespace ImplementorIndex.Sorting

universe u v

variable {α : Type u} {κ : Type v} [Ord κ] [Std.TransOrd κ] (key : α → κ)

theorem pairwise_le_sort (list : List α) :
    (list.mergeSort fun a b => (compare (key a) (key b)).isLE).Pairwise
      fun a b => (compare (key a) (key b)).isLE := by
  apply List.pairwise_mergeSort
  · intro a b c first second
    exact Std.TransCmp.isLE_trans first second
  · intro a b
    have turned : compare (key b) (key a) = (compare (key a) (key b)).swap := Std.OrientedCmp.eq_swap
    rw [turned]
    cases compare (key a) (key b) with
    | lt => rfl
    | eq => rfl
    | gt => rfl

variable [Std.LawfulEqOrd κ] {list other : List α}

theorem pairwise_lt_sort (apart : (list.map key).Nodup) :
    (list.mergeSort fun a b => (compare (key a) (key b)).isLE).Pairwise
      fun a b => compare (key a) (key b) = .lt := by
  have different : (list.mergeSort fun a b => (compare (key a) (key b)).isLE).Pairwise
      fun a b => key a ≠ key b :=
    List.pairwise_map.mp (((List.mergeSort_perm list _).map key).nodup_iff.mpr apart)
  refine (pairwise_le_sort key list).imp₂ ?_ different
  intro a b below ne
  cases order : compare (key a) (key b) with
  | lt => rfl
  | eq => exact absurd (Std.compare_eq_iff_eq.mp order) ne
  | gt => simp [order] at below

/-- The order that the list had before does not matter. -/
theorem sort_eq_of_perm (apart : (list.map key).Nodup) (perm : list.Perm other) :
    (list.mergeSort fun a b => (compare (key a) (key b)).isLE) =
      other.mergeSort fun a b => (compare (key a) (key b)).isLE := by
  have sorted := pairwise_lt_sort key apart
  have sorted' := pairwise_lt_sort key ((perm.map key).nodup_iff.mp apart)
  refine List.Perm.eq_of_pairwise ?_ sorted sorted' ?_
  · intro a b _ _ less greater
    have asymm := Std.OrientedCmp.gt_of_lt less
    rw [greater] at asymm
    cases asymm
  · exact (List.mergeSort_perm list _).trans (perm.trans (List.mergeSort_perm other _).symm)

end ImplementorIndex.Sorting

namespace ImplementorIndex.Text

def bytes (text : String) : List UInt8 := text.toUTF8.data.toList

theorem bytes_eq_flatMap (text : String) :
    bytes text = text.toList.flatMap String.utf8EncodeChar := by
  rw [bytes, String.toUTF8_eq_toByteArray, ← String.utf8Encode_toList, List.utf8Encode,
    List.toList_data_toByteArray]

theorem byte_cons_lt_iff {m n : Nat} (hm : m < 256) (hn : n < 256) (s t : List UInt8) :
    UInt8.ofNat m :: s < UInt8.ofNat n :: t ↔ m < n ∨ m = n ∧ s < t := by
  have inj : UInt8.ofNat m = UInt8.ofNat n ↔ m = n := by
    rw [← UInt8.toNat_inj, UInt8.toNat_ofNat_of_lt' hm, UInt8.toNat_ofNat_of_lt' hn]
  rw [List.cons_lt_cons_iff, inj, UInt8.lt_iff_toNat_lt, UInt8.toNat_ofNat_of_lt' hm,
    UInt8.toNat_ofNat_of_lt' hn]

/-- The bytes that spell a code point, by its size. -/
inductive Spelling : Nat → List UInt8 → Prop where
  | one {n : Nat} (most : n ≤ 127) : Spelling n [.ofNat n]
  | two {n : Nat} (least : 127 < n) (most : n ≤ 2047) :
    Spelling n [.ofNat (n / 64 % 32 + 192), .ofNat (n % 64 + 128)]
  | three {n : Nat} (least : 2047 < n) (most : n ≤ 65535) :
    Spelling n [.ofNat (n / 4096 % 16 + 224), .ofNat (n / 64 % 64 + 128), .ofNat (n % 64 + 128)]
  | four {n : Nat} (least : 65535 < n) (most : n < 1114112) :
    Spelling n [.ofNat (n / 262144 % 8 + 240), .ofNat (n / 4096 % 64 + 128),
      .ofNat (n / 64 % 64 + 128), .ofNat (n % 64 + 128)]

theorem toNat_val_lt (c : Char) : c.val.toNat < 1114112 := by
  rcases c.valid with low | ⟨_, high⟩
  · exact Nat.lt_trans low (by decide)
  · exact high

theorem spelling_encodeChar (c : Char) : Spelling c.val.toNat (String.utf8EncodeChar c) := by
  have most := toNat_val_lt c
  unfold String.utf8EncodeChar
  dsimp only
  split
  · exact .one ‹_›
  · split
    · exact .two (by omega) ‹_›
    · split
      · exact .three (by omega) ‹_›
      · exact .four (by omega) most

/-- The last digit decides where the others agree. -/
theorem digits_lt {m n : Nat} (less : m < n) :
    m / 64 < n / 64 ∨ m / 64 = n / 64 ∧ m % 64 < n % 64 := by
  omega

theorem Spelling.append_lt {m n : Nat} {a b : List UInt8} (ha : Spelling m a) (hb : Spelling n b)
    (less : m < n) (s t : List UInt8) : a ++ s < b ++ t := by
  cases hb with
  | one _ =>
    cases ha with
    | one _ => exact (byte_cons_lt_iff (by omega) (by omega) _ _).mpr (.inl less)
    | _ => omega
  | two _ _ =>
    cases ha with
    | one _ => exact (byte_cons_lt_iff (by omega) (by omega) _ _).mpr (.inl (by omega))
    | two _ _ =>
      simp (disch := omega) only [List.cons_append, byte_cons_lt_iff]
      rcases digits_lt less with first | ⟨same, last⟩
      · exact .inl (by omega)
      · exact .inr ⟨by omega, .inl (by omega)⟩
    | _ => omega
  | three _ _ =>
    cases ha with
    | one _ => exact (byte_cons_lt_iff (by omega) (by omega) _ _).mpr (.inl (by omega))
    | two _ _ => exact (byte_cons_lt_iff (by omega) (by omega) _ _).mpr (.inl (by omega))
    | three _ _ =>
      simp (disch := omega) only [List.cons_append, byte_cons_lt_iff]
      rcases digits_lt less with higher | ⟨same, last⟩
      · rcases digits_lt higher with first | ⟨same, second⟩
        · exact .inl (by omega)
        · exact .inr ⟨by omega, .inl (by omega)⟩
      · exact .inr ⟨by omega, .inr ⟨by omega, .inl (by omega)⟩⟩
    | four _ _ => omega
  | four _ most =>
    cases ha with
    | one _ => exact (byte_cons_lt_iff (by omega) (by omega) _ _).mpr (.inl (by omega))
    | two _ _ => exact (byte_cons_lt_iff (by omega) (by omega) _ _).mpr (.inl (by omega))
    | three _ _ => exact (byte_cons_lt_iff (by omega) (by omega) _ _).mpr (.inl (by omega))
    | four _ _ =>
      simp (disch := omega) only [List.cons_append, byte_cons_lt_iff]
      rcases digits_lt less with higher | ⟨same, last⟩
      · rcases digits_lt higher with highest | ⟨same, third⟩
        · rcases digits_lt highest with first | ⟨same, second⟩
          · exact .inl (by omega)
          · exact .inr ⟨by omega, .inl (by omega)⟩
        · exact .inr ⟨by omega, .inr ⟨by omega, .inl (by omega)⟩⟩
      · exact .inr ⟨by omega, .inr ⟨by omega, .inr ⟨by omega, .inl (by omega)⟩⟩⟩

theorem encodeChar_append_lt {c d : Char} (less : c < d) (s t : List UInt8) :
    String.utf8EncodeChar c ++ s < String.utf8EncodeChar d ++ t :=
  (spelling_encodeChar c).append_lt (spelling_encodeChar d) less s t

theorem append_lt_append_left (front : List UInt8) {s t : List UInt8} (less : s < t) :
    front ++ s < front ++ t := by
  induction front with
  | nil => exact less
  | cons byte front ih => exact List.cons_lt_cons_iff.mpr (.inr ⟨rfl, ih⟩)

theorem flatMap_encodeChar_lt {a b : List Char} (less : a < b) :
    a.flatMap String.utf8EncodeChar < b.flatMap String.utf8EncodeChar := by
  induction less with
  | nil =>
    rename_i c rest
    rw [List.flatMap_nil, List.flatMap_cons]
    cases spelled : String.utf8EncodeChar c with
    | nil => exact absurd spelled String.utf8EncodeChar_ne_nil
    | cons byte more => exact List.nil_lt_cons byte _
  | rel first => exact encodeChar_append_lt first _ _
  | cons _ ih => exact append_lt_append_left _ ih

theorem compare_eq_lt_iff {a b : String} : compare a b = .lt ↔ a < b :=
  compareOfLessAndEq_eq_lt

/-- Texts compare as their bytes do. -/
theorem bytes_lt_bytes_iff {a b : String} : bytes a < bytes b ↔ a < b := by
  have forward : ∀ {a b : String}, a < b → bytes a < bytes b := by
    intro a b less
    rw [bytes_eq_flatMap, bytes_eq_flatMap]
    exact flatMap_encodeChar_lt less
  constructor
  · intro less
    rcases Std.lt_trichotomy a b with before | same | behind
    · exact before
    · subst same
      exact absurd less (List.lt_irrefl _)
    · exact absurd less (List.lt_asymm (forward behind))
  · exact forward

end ImplementorIndex.Text
