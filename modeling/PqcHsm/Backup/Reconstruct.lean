import Mathlib.Data.List.GetD
import PqcHsm.Backup.Gf256
import PqcHsm.Library.SecretSharing

/-!
# Combining shares

Any `m` or more distinct shares of a split give the secret back, in whatever order.
-/

namespace PqcHsm

open ByteCodec SecretSharing

section Values

theorem mk_shamirHorner (coef : Nat → UInt8) (x : UInt8) (d : Nat) (acc : UInt8) :
    Gf256.mk (shamirHorner coef x d acc) = horner (fun d => ⟨coef d⟩) ⟨x⟩ d ⟨acc⟩ := by
  induction d generalizing acc with
  | zero => rfl
  | succ d ih =>
    rw [shamirHorner, ih, horner]
    rfl

/-- A share holds values of the polynomials. -/
theorem mk_shamirValue (coef : Nat → UInt8) {m : Nat} (hm : 0 < m) (x : UInt8) :
    Gf256.mk (shamirValue coef m x) = (sharePoly (fun d => ⟨coef d⟩) m).eval ⟨x⟩ := by
  obtain ⟨d, rfl⟩ := Nat.exists_eq_succ_of_ne_zero hm.ne'
  rw [shamirValue, mk_shamirHorner, horner_eq, eval_sharePoly, Finset.sum_range_succ, add_comm]
  rfl

theorem mk_foldl_gfMul (f : Nat → UInt8) (ts : List Nat) (acc : UInt8) :
    Gf256.mk (ts.foldl (fun acc t => gfMul acc (f t)) acc) =
      ⟨acc⟩ * (ts.map fun t => Gf256.mk (f t)).prod := by
  induction ts generalizing acc with
  | nil => simp
  | cons t ts ih =>
    rw [List.foldl_cons, ih, List.map_cons, List.prod_cons, Gf256.mk_gfMul, mul_assoc]

theorem mk_foldl_xor (f : Nat → UInt8) (ts : List Nat) (acc : UInt8) :
    Gf256.mk (ts.foldl (fun acc t => acc ^^^ f t) acc) =
      ⟨acc⟩ + (ts.map fun t => Gf256.mk (f t)).sum := by
  induction ts generalizing acc with
  | nil => simp
  | cons t ts ih =>
    rw [List.foldl_cons, ih, List.map_cons, List.sum_cons, Gf256.mk_xor, add_assoc]

/-- A product over the indices other than `i`. -/
theorem prod_others (f : Nat → Gf256) (k i : Nat) :
    (((List.range k).filter (· ≠ i)).map f).prod = ∏ t ∈ (Finset.range k).erase i, f t := by
  have hNodup : ((List.range k).filter (· ≠ i)).Nodup := List.nodup_range.filter _
  rw [← List.prod_toFinset f hNodup]
  congr 1
  ext t
  simp [and_comm]

theorem mk_shamirBasis (xs : List UInt8) (i : Nat) : Gf256.mk (shamirBasis xs i) =
    weight (Finset.range xs.length) (fun t => Gf256.mk (xs.getD t 0)) i := by
  unfold shamirBasis
  dsimp only
  rw [Gf256.mk_gfMul, Gf256.mk_gfInv, mk_foldl_gfMul, mk_foldl_gfMul, prod_others, prod_others,
    Gf256.mk_one, one_mul, one_mul, weight]
  congr 2
  refine Finset.prod_congr rfl fun t _ => ?_
  rw [Gf256.sub_eq_add, Gf256.mk_xor, add_comm]

end Values

section Shares

variable (C : Crypto)

/-- The share at `x` of the polynomials with the given coefficients. -/
def shareOf (coef : Nat → Nat → UInt8) (m len : Nat) (x : UInt8) : Bytes :=
  shareLine C x ((List.range len).map fun j => shamirValue (coef j) m x)

variable {C} {coef : Nat → Nat → UInt8} {m len : Nat} {x : UInt8}

theorem length_shareChecksum (line : Bytes) :
    (shareChecksum C line).length = SHAMIR_CHECKSUM_LEN := by
  rw [shareChecksum, List.length_take, List.Vector.toList_length]
  rfl

theorem length_shareOf : (shareOf C coef m len x).length = len + SHAMIR_SHARE_OVERHEAD := by
  simp only [shareOf, shareLine, List.length_append, List.length_cons, List.length_map,
    List.length_range, length_shareChecksum, SHAMIR_CHECKSUM_LEN, SHAMIR_SHARE_OVERHEAD]

theorem headD_shareOf : (shareOf C coef m len x).headD 0 = x := rfl

theorem getD_shareOf {j : Nat} (hj : j < len) :
    (shareOf C coef m len x).getD (SHAMIR_HDR_LEN + j) 0 = shamirValue (coef j) m x := by
  have hShift : SHAMIR_HDR_LEN + j = j + 1 + 1 := by
    unfold SHAMIR_HDR_LEN
    omega
  rw [hShift, shareOf, shareLine, List.cons_append, List.cons_append, List.getD_cons_succ,
    List.getD_cons_succ, List.getD_append _ _ _ _ (by simpa using hj)]
  simp [List.getD_eq_getElem?_getD, hj]

theorem shareAccepted_shareOf {cap : Nat} (hLen : 0 < len) (hMax : len ≤ SHAMIR_MAX_SECRET)
    (hCap : len + SHAMIR_SHARE_OVERHEAD ≤ cap) (hx : x ≠ 0) (hxMax : x.toNat ≤ SHAMIR_MAX_SHARES) :
    shareAccepted C cap len (shareOf C coef m len x) = true := by
  have hBody : (shareOf C coef m len x).length - SHAMIR_SHARE_OVERHEAD = len := by
    rw [length_shareOf, Nat.add_sub_cancel]
  have hByte : ((shareOf C coef m len x).getD 1 0).toNat = len := by
    change (UInt8.ofNat (List.map _ (List.range len)).length).toNat = len
    rw [List.length_map, List.length_range, UInt8.toNat_ofNat', Nat.mod_eq_of_lt]
    exact Nat.lt_of_le_of_lt hMax (by decide)
  have hSum : shareChecksum C ((shareOf C coef m len x).take (SHAMIR_HDR_LEN + len)) =
      (shareOf C coef m len x).drop (SHAMIR_HDR_LEN + len) := by
    have hLine : (x :: UInt8.ofNat (List.map (fun j => shamirValue (coef j) m x)
        (List.range len)).length :: List.map (fun j => shamirValue (coef j) m x)
          (List.range len)).length = SHAMIR_HDR_LEN + len := by
      simp only [List.length_cons, List.length_map, List.length_range, SHAMIR_HDR_LEN]
      omega
    rw [shareOf, shareLine, List.take_left' hLine, List.drop_left' hLine]
  unfold shareAccepted
  dsimp only
  rw [hBody, hByte, hSum, headD_shareOf, length_shareOf]
  exact decide_eq_true ⟨hCap, by omega, hMax, rfl, rfl, hx, hxMax, rfl⟩

/-- The interpolation of one byte. -/
theorem combine_byte {sel : List Bytes} {j : Nat} (hj : j < len) (hm : 0 < m)
    (hSel : ∀ line ∈ sel, ∃ x, line = shareOf C coef m len x)
    (hNodup : (sel.map (·.headD 0)).Nodup) (hCount : m ≤ sel.length) :
    (List.range sel.length).foldl (fun acc i => acc ^^^
      gfMul ((sel.getD i []).getD (SHAMIR_HDR_LEN + j) 0) (shamirBasis (sel.map (·.headD 0)) i)) 0 =
        coef j 0 := by
  let v : Nat → Gf256 := fun t => ⟨(sel.map (·.headD 0)).getD t 0⟩
  let p := sharePoly (fun d => Gf256.mk (coef j d)) m
  have hInj : Set.InjOn v (Finset.range sel.length) := by
    intro s hs t ht hEq
    have hs : s < (sel.map (·.headD 0)).length := by simpa using hs
    have ht : t < (sel.map (·.headD 0)).length := by simpa using ht
    have hByte := congrArg Gf256.byte hEq
    simp only [v, List.getD_eq_getElem _ _ hs, List.getD_eq_getElem _ _ ht] at hByte
    exact (List.Nodup.getElem_inj_iff hNodup).mp hByte
  have hDegree : p.degree < (Finset.range sel.length).card := by
    rw [Finset.card_range]
    exact (degree_sharePoly_lt _ m).trans_le (Nat.cast_le.mpr hCount)
  have hTerm : ∀ i < sel.length, Gf256.mk (gfMul ((sel.getD i []).getD (SHAMIR_HDR_LEN + j) 0)
      (shamirBasis (sel.map (·.headD 0)) i)) =
        p.eval (v i) * weight (Finset.range sel.length) v i := by
    intro i hi
    obtain ⟨x, hx⟩ := hSel _ (List.getElem_mem hi)
    have hv : v i = ⟨x⟩ := by
      have hi' : i < (sel.map (·.headD 0)).length := by simpa using hi
      simp only [v, List.getD_eq_getElem _ _ hi', List.getElem_map, hx]
      rfl
    rw [Gf256.mk_gfMul, mk_shamirBasis, List.length_map, List.getD_eq_getElem _ _ hi, hx,
      getD_shareOf hj, mk_shamirValue _ hm, hv]
  have hSum : Gf256.mk ((List.range sel.length).foldl (fun acc i => acc ^^^
      gfMul ((sel.getD i []).getD (SHAMIR_HDR_LEN + j) 0)
        (shamirBasis (sel.map (·.headD 0)) i)) 0) = ⟨coef j 0⟩ := by
    rw [mk_foldl_xor, Gf256.mk_zero, zero_add, ← List.sum_toFinset _ List.nodup_range,
      List.toFinset_range]
    calc ∑ i ∈ Finset.range sel.length, Gf256.mk (gfMul ((sel.getD i []).getD (SHAMIR_HDR_LEN + j) 0)
          (shamirBasis (sel.map (·.headD 0)) i))
        = ∑ i ∈ Finset.range sel.length, p.eval (v i) * weight (Finset.range sel.length) v i :=
          Finset.sum_congr rfl fun i hi => hTerm i (Finset.mem_range.mp hi)
      _ = p.eval 0 := (eval_zero_eq_sum hInj hDegree).symm
      _ = ⟨coef j 0⟩ := eval_sharePoly_zero _ hm
  exact congrArg Gf256.byte hSum

/-- Combining `m` or more shares at distinct places gives the constant terms. -/
theorem shamirCombine_of_shares {sel : List Bytes} {cap outCap : Nat} (hLen : 0 < len)
    (hMax : len ≤ SHAMIR_MAX_SECRET) (hm : 0 < m)
    (hSel : ∀ line ∈ sel, ∃ x, x ≠ 0 ∧ x.toNat ≤ SHAMIR_MAX_SHARES ∧
      line = shareOf C coef m len x)
    (hNodup : sel.Nodup) (hCount : m ≤ sel.length) (hFew : sel.length ≤ SHAMIR_MAX_SHARES)
    (hCap : len + SHAMIR_SHARE_OVERHEAD ≤ cap) (hOut : len ≤ outCap) :
    shamirCombine C cap sel outCap = some ((List.range len).map fun j => coef j 0) := by
  have hShare : ∀ line ∈ sel, ∃ x, line = shareOf C coef m len x := by
    intro line hLine
    obtain ⟨x, -, -, hx⟩ := hSel line hLine
    exact ⟨x, hx⟩
  have hPlaces : (sel.map (·.headD 0)).Nodup := by
    refine hNodup.map_on fun l hl l' hl' hEq => ?_
    obtain ⟨x, rfl⟩ := hShare l hl
    obtain ⟨x', rfl⟩ := hShare l' hl'
    rw [headD_shareOf, headD_shareOf] at hEq
    rw [hEq]
  have hFirst : (sel.headD []).length - SHAMIR_SHARE_OVERHEAD = len := by
    cases sel with
    | nil =>
      rw [List.length_nil] at hCount
      omega
    | cons line rest =>
      obtain ⟨x, rfl⟩ := hShare line (List.mem_cons_self ..)
      rw [List.headD_cons, length_shareOf, Nat.add_sub_cancel]
  have hAll : sel.all (shareAccepted C cap len) = true := by
    rw [List.all_eq_true]
    intro line hLine
    obtain ⟨x, hx, hxMax, rfl⟩ := hSel line hLine
    exact shareAccepted_shareOf hLen hMax hCap hx hxMax
  unfold shamirCombine
  dsimp only
  rw [hFirst, hAll, if_neg (by omega), if_neg (by omega), if_neg (by decide),
    if_neg (not_not_intro hPlaces), if_neg (by omega)]
  congr 1
  exact List.map_congr_left fun j hj =>
    combine_byte (List.mem_range.mp hj) hm hShare hPlaces hCount

/-- What a split that succeeds has made. -/
theorem shamirSplit_eq_some {random : Nat → Option (Nat → UInt8)} {secret : Bytes} {m k cap : Nat}
    {shares : List Bytes} (h : shamirSplit C random secret m k cap = some shares) :
    (0 < secret.length ∧ secret.length ≤ SHAMIR_MAX_SECRET) ∧
      (2 ≤ m ∧ m ≤ k ∧ k ≤ SHAMIR_MAX_SHARES) ∧
      ∃ coef : Nat → Nat → UInt8, (∀ j, coef j 0 = secret.getD j 0) ∧
        shares = (List.range k).map fun i =>
          shareOf C coef m secret.length (UInt8.ofNat (i + 1)) := by
  unfold shamirSplit at h
  split at h
  · cases h
  · split at h
    · cases h
    · split at h
      · cases h
      · split at h
        · cases h
          exact ⟨by omega, by omega, fun j d => if d = 0 then secret.getD j 0
            else ((random d).getD fun _ => 0) j, fun j => if_pos rfl, rfl⟩
        · cases h

/-- Any `m` or more distinct shares of a split give the secret back. -/
theorem shamirCombine_shamirSplit {random : Nat → Option (Nat → UInt8)} {secret : Bytes}
    {m k cap cap' outCap : Nat} {shares sel : List Bytes}
    (h : shamirSplit C random secret m k cap = some shares) (hSel : sel ⊆ shares)
    (hNodup : sel.Nodup) (hCount : m ≤ sel.length)
    (hCap : secret.length + SHAMIR_SHARE_OVERHEAD ≤ cap') (hOut : secret.length ≤ outCap) :
    shamirCombine C cap' sel outCap = some secret := by
  obtain ⟨⟨hLen, hMax⟩, ⟨hm, -, hk⟩, coef, hCoef, rfl⟩ := shamirSplit_eq_some h
  have hFew : sel.length ≤ k := by
    simpa using (hNodup.subperm hSel).length_le
  have hShares : ∀ line ∈ sel, ∃ x, x ≠ 0 ∧ x.toNat ≤ SHAMIR_MAX_SHARES ∧
      line = shareOf C coef m secret.length x := by
    intro line hLine
    obtain ⟨i, hi, rfl⟩ := List.mem_map.mp (hSel hLine)
    have hi := List.mem_range.mp hi
    have hNat : (UInt8.ofNat (i + 1)).toNat = i + 1 := by
      rw [UInt8.toNat_ofNat', Nat.mod_eq_of_lt]
      unfold SHAMIR_MAX_SHARES at hk
      omega
    refine ⟨_, fun hZero => ?_, ?_, rfl⟩
    · rw [hZero] at hNat
      exact absurd hNat (Nat.succ_ne_zero i).symm
    · rw [hNat]
      omega
  rw [shamirCombine_of_shares hLen hMax (by omega) hShares hNodup hCount (hFew.trans hk) hCap hOut]
  congr 1
  refine List.ext_getElem (by simp) fun j hj hj' => ?_
  rw [List.getElem_map, List.getElem_range, hCoef, List.getD_eq_getElem _ _ hj']

/-- Every choice of the coefficients makes a split, and any `m` or more of its shares, in any order,
give the secret back. -/
theorem shamir_reconstruction {random : Nat → Option (Nat → UInt8)} {secret : Bytes} {m k cap : Nat}
    (hLen : 1 ≤ secret.length ∧ secret.length ≤ SHAMIR_MAX_SECRET)
    (hCount : 2 ≤ m ∧ m ≤ k ∧ k ≤ SHAMIR_MAX_SHARES)
    (hRandom : ∀ d, 1 ≤ d → d < m → (random d).isSome)
    (hCap : secret.length + SHAMIR_SHARE_OVERHEAD ≤ cap) :
    ∃ shares, shamirSplit C random secret m k cap = some shares ∧ shares.length = k ∧
      ∀ sel cap' outCap, sel ⊆ shares → sel.Nodup → m ≤ sel.length →
        secret.length + SHAMIR_SHARE_OVERHEAD ≤ cap' → secret.length ≤ outCap →
          shamirCombine C cap' sel outCap = some secret := by
  have hDrawn : ((List.range m).all fun d => d = 0 || (random d).isSome) = true := by
    rw [List.all_eq_true]
    intro d hd
    by_cases h0 : d = 0
    · simp [h0]
    · simp [hRandom d (Nat.pos_of_ne_zero h0) (List.mem_range.mp hd)]
  obtain ⟨shares, hSplit⟩ : ∃ shares, shamirSplit C random secret m k cap = some shares := by
    unfold shamirSplit
    rw [if_neg (by omega), if_neg (by omega), if_neg (by omega), if_pos hDrawn]
    exact ⟨_, rfl⟩
  refine ⟨shares, hSplit, ?_, fun sel cap' outCap hSel hNodup hEnough hCap' hOut =>
    shamirCombine_shamirSplit hSplit hSel hNodup hEnough hCap' hOut⟩
  obtain ⟨-, -, coef, -, rfl⟩ := shamirSplit_eq_some hSplit
  rw [List.length_map, List.length_range]

theorem shamir_reconstruction_two_of_three :
    ∃ shares, shamirSplit .clear (fun d => some fun j => UInt8.ofNat (d + j)) [1, 2, 3] 2 3 64 =
      some shares ∧ shares.length = 3 ∧
      ∀ sel cap' outCap, sel ⊆ shares → sel.Nodup → 2 ≤ sel.length → 3 + 6 ≤ cap' → 3 ≤ outCap →
        shamirCombine .clear cap' sel outCap = some [1, 2, 3] :=
  shamir_reconstruction (by decide) (by decide) (fun _ _ _ => rfl) (by decide)

end Shares

end PqcHsm
