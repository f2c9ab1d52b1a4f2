import Mathlib.Data.FinEnum
import Mathlib.Data.Fintype.Pi
import PqcHsm.Backup.Reconstruct

/-!
# Fewer shares than the threshold

For every two secrets, as many choices of the coefficients give the observed shares of the one as
give them of the other: adding a multiple of a polynomial that vanishes at the observed places
takes the choices for the one to those for the other.
-/

namespace PqcHsm

open ByteCodec SecretSharing

variable {m len : Nat}

/-- The coefficients above the constant terms, a row for each degree. -/
def Coefficients (m len : Nat) : Type := Fin (m - 1) → Fin len → UInt8

instance : Fintype (Coefficients m len) :=
  inferInstanceAs (Fintype (Fin (m - 1) → Fin len → UInt8))

/-- The random calls that draw the coefficients. -/
def drawing (c : Coefficients m len) : Nat → Option (Nat → UInt8) := fun d => some fun j =>
  if h : 0 < d ∧ d < m ∧ j < len then c ⟨d - 1, by omega⟩ ⟨j, h.2.2⟩ else 0

/-- With the coefficients, the split of the secret gives the observed shares at the indices. -/
def GivesShares (C : Crypto) (n cap : Nat) (indices : Finset Nat) (observed : Nat → Bytes)
    (secret : ByteVec len) (c : Coefficients m len) : Prop :=
  ∃ shares, shamirSplit C (drawing c) secret.toList m n cap = some shares ∧
    ∀ i ∈ indices, shares[i]? = some (observed i)

instance (C : Crypto) (n cap : Nat) (indices : Finset Nat) (observed : Nat → Bytes)
    (secret : ByteVec len) (c : Coefficients m len) :
    Decidable (GivesShares C n cap indices observed secret c) :=
  match h : shamirSplit C (drawing c) secret.toList m n cap with
  | none => isFalse fun hGives => by
    obtain ⟨shares, hSplit, -⟩ := hGives
    rw [h] at hSplit
    cases hSplit
  | some shares => decidable_of_iff (∀ i ∈ indices, shares[i]? = some (observed i)) (by
    rw [GivesShares, h]
    constructor
    · exact fun hAll => ⟨shares, rfl, hAll⟩
    · rintro ⟨_, ⟨⟩, hAll⟩
      exact hAll)

/-- All coefficients of a split. -/
def coefOf (secret : ByteVec len) (c : Coefficients m len) (j d : Nat) : UInt8 :=
  if d = 0 then secret.toList.getD j 0 else ((drawing c d).getD fun _ => 0) j

theorem shamirSplit_drawing (C : Crypto) (secret : ByteVec len) (c : Coefficients m len)
    (n cap : Nat) : shamirSplit C (drawing c) secret.toList m n cap =
      if len = 0 ∨ SHAMIR_MAX_SECRET < len then none
      else if m < 2 ∨ n < m ∨ SHAMIR_MAX_SHARES < n then none
      else if cap < len + SHAMIR_SHARE_OVERHEAD then none
      else some ((List.range n).map fun i =>
        shareOf C (coefOf secret c) m len (UInt8.ofNat (i + 1))) := by
  have hAll : (List.range m).all (fun d => d = 0 || (drawing c d).isSome) = true := by
    rw [List.all_eq_true]
    intro d _
    exact Bool.or_true _
  unfold shamirSplit
  rw [secret.toList_length, hAll]
  rfl

/-- The coefficients with a multiple of the mask added in each column. -/
def shifted (mask : Nat → Gf256) (δ : Nat → UInt8) (c : Coefficients m len) : Coefficients m len :=
  fun d j => c d j ^^^ gfMul (δ j) (mask (d + 1)).byte

theorem shifted_shifted (mask : Nat → Gf256) (δ : Nat → UInt8) (c : Coefficients m len) :
    shifted mask δ (shifted mask δ c) = c := by
  funext d j
  rw [shifted, shifted, UInt8.xor_assoc, UInt8.xor_self, UInt8.xor_zero]

section Shift

variable {mask : Nat → Gf256} {secret secret' : ByteVec len} {c : Coefficients m len}

/-- The difference of two secrets. -/
def secretDiff (secret secret' : ByteVec len) (j : Nat) : UInt8 :=
  secret.toList.getD j 0 ^^^ secret'.toList.getD j 0

theorem secretDiff_comm (secret secret' : ByteVec len) :
    secretDiff secret secret' = secretDiff secret' secret :=
  funext fun _ => UInt8.xor_comm ..

/-- Shifting the coefficients shifts the secret. -/
theorem mk_coefOf_shifted (hMask : mask 0 = 1) {j d : Nat} (hj : j < len) (hd : d < m) :
    Gf256.mk (coefOf secret' (shifted mask (secretDiff secret secret') c) j d) =
      Gf256.mk (coefOf secret c j d) + ⟨secretDiff secret secret' j⟩ * mask d := by
  unfold coefOf
  by_cases h0 : d = 0
  · subst h0
    rw [if_pos rfl, if_pos rfl, hMask, mul_one, ← Gf256.mk_xor, secretDiff, ← UInt8.xor_assoc,
      UInt8.xor_self, UInt8.zero_xor]
  · have hIn : 0 < d ∧ d < m ∧ j < len := ⟨Nat.pos_of_ne_zero h0, hd, hj⟩
    rw [if_neg h0, if_neg h0]
    simp only [drawing, Option.getD_some, dif_pos hIn, shifted, Nat.sub_add_cancel hIn.1]
    rfl

/-- At the places of the mask the shares stay. -/
theorem shareOf_shifted {C : Crypto} {x : UInt8} (hm : 0 < m) (hMask : mask 0 = 1)
    (hx : ∑ d ∈ Finset.range m, mask d * Gf256.mk x ^ d = 0) :
    shareOf C (coefOf secret' (shifted mask (secretDiff secret secret') c)) m len x =
      shareOf C (coefOf secret c) m len x := by
  unfold shareOf
  congr 1
  refine List.map_congr_left fun j hj => ?_
  have hj := List.mem_range.mp hj
  have hValue : Gf256.mk (shamirValue
      (coefOf secret' (shifted mask (secretDiff secret secret') c) j) m x) =
        Gf256.mk (shamirValue (coefOf secret c j) m x) := by
    rw [mk_shamirValue _ hm, mk_shamirValue _ hm, eval_sharePoly, eval_sharePoly]
    refine (Finset.sum_congr rfl fun d hd => ?_).trans
      (sum_add_mask hx ⟨secretDiff secret secret' j⟩)
    rw [mk_coefOf_shifted hMask hj (Finset.mem_range.mp hd)]
  exact congrArg Gf256.byte hValue

end Shift

/-- The places of the shares with the given indices. -/
def sharePlaces (indices : Finset Nat) : Finset Gf256 :=
  (indices.filter (· < SHAMIR_MAX_SHARES)).image fun i => ⟨UInt8.ofNat (i + 1)⟩

theorem zero_notMem_sharePlaces (indices : Finset Nat) : 0 ∉ sharePlaces indices := by
  intro hZero
  obtain ⟨i, hi, hEq⟩ := Finset.mem_image.mp hZero
  have hi : i < 16 := (Finset.mem_filter.mp hi).2
  have hNat : (UInt8.ofNat (i + 1)).toNat = 0 := congrArg (UInt8.toNat ∘ Gf256.byte) hEq
  rw [UInt8.toNat_ofNat', Nat.mod_eq_of_lt (by omega)] at hNat
  exact absurd hNat (Nat.succ_ne_zero i)

theorem card_sharePlaces_le (indices : Finset Nat) : (sharePlaces indices).card ≤ indices.card :=
  Finset.card_image_le.trans (Finset.card_filter_le ..)

/-- The shifted choice gives the same shares of the other secret. -/
theorem GivesShares.shift {C : Crypto} {n cap : Nat} {indices : Finset Nat}
    {observed : Nat → Bytes} {secret secret' : ByteVec len} {c : Coefficients m len}
    {mask : Nat → Gf256} (h : GivesShares C n cap indices observed secret c) (hMask : mask 0 = 1)
    (hPlaces : ∀ x ∈ sharePlaces indices, ∑ d ∈ Finset.range m, mask d * x ^ d = 0) :
    GivesShares C n cap indices observed secret'
      (shifted mask (secretDiff secret secret') c) := by
  obtain ⟨shares, hSplit, hShares⟩ := h
  obtain ⟨-, ⟨hm, -, hMax⟩, -⟩ := shamirSplit_eq_some hSplit
  rw [shamirSplit_drawing] at hSplit
  refine ⟨(List.range n).map fun i => shareOf C
    (coefOf secret' (shifted mask (secretDiff secret secret') c)) m len (UInt8.ofNat (i + 1)),
    ?_, fun i hi => ?_⟩
  · rw [shamirSplit_drawing]
    iterate 3
      split at hSplit
      · cases hSplit
      rename_i hOk
      rw [if_neg hOk]
  · iterate 3
      split at hSplit
      · cases hSplit
    cases hSplit
    rw [← hShares i hi]
    rw [List.getElem?_map, List.getElem?_map]
    by_cases hn : i < n
    · rw [List.getElem?_range hn, Option.map_some, Option.map_some]
      congr 1
      refine shareOf_shifted (by omega) hMask (hPlaces _ (Finset.mem_image.mpr ⟨i, ?_, rfl⟩))
      exact Finset.mem_filter.mpr ⟨hi, by omega⟩
    · rw [List.getElem?_eq_none (by simpa using hn), Option.map_none, Option.map_none]

/-- Fewer shares than the threshold come from every secret with the same number of coefficient
choices. -/
theorem shares_hide_secret (C : Crypto) (n cap : Nat) {indices : Finset Nat}
    (hFew : indices.card < m) (observed : Nat → Bytes) (secret secret' : ByteVec len) :
    Fintype.card { c : Coefficients m len // GivesShares C n cap indices observed secret c } =
      Fintype.card { c : Coefficients m len // GivesShares C n cap indices observed secret' c } := by
  obtain ⟨mask, hMask, hPlaces⟩ := exists_mask (zero_notMem_sharePlaces indices)
    (Nat.lt_of_le_of_lt (card_sharePlaces_le indices) hFew)
  refine Fintype.card_congr ⟨fun c => ⟨_, c.property.shift hMask hPlaces⟩,
    fun c => ⟨_, c.property.shift hMask hPlaces⟩, fun c => ?_, fun c => ?_⟩
  · refine Subtype.ext ?_
    dsimp only
    rw [secretDiff_comm secret' secret, shifted_shifted]
  · refine Subtype.ext ?_
    dsimp only
    rw [secretDiff_comm secret' secret, shifted_shifted]

section Runs

/-- The second share of a byte. -/
def secondShare : Nat → Bytes := fun _ => shareLine .clear 2 [9]

/-- A secret of one byte. -/
def oneByte (b : UInt8) : ByteVec 1 := ⟨[b], rfl⟩

theorem one_share_hides_byte :
    Fintype.card { c : Coefficients 2 1 // GivesShares .clear 3 64 {1} secondShare (oneByte 5) c } =
      Fintype.card
        { c : Coefficients 2 1 // GivesShares .clear 3 64 {1} secondShare (oneByte 200) c } :=
  shares_hide_secret .clear 3 64 (by decide) secondShare (oneByte 5) (oneByte 200)

end Runs

end PqcHsm
