import PoQ.QuantumOverflow

/-!
# The tiers of the admissible times

`set_global_constants` lets the server start with as many tiers as the bounds leave SGX times apart from
one. `calc_tier_number` does not look at the lower bound: it divides the times from 0 on. All its
arguments are of type `uint`, and the tier is converted to an `int`.
-/

namespace PoQ

/-- `calc_tier_number` with its conversion to `int`, which is undefined for larger quotients. -/
def calcTierNumberInt (node : Node) (totalTiers sgxMax : ℕ) : Except Abort ℤ := do
  ensure (ceilf (totalTiers * node.sgxTime) sgxMax < intSize) .intOverflow
  calcTierNumber node totalTiers sgxMax

namespace Configuration

/-- The check of `poet_sgx_time_broadcast`. SGX times are `uint` variables. -/
def Accepts (config : Configuration) (sgxTime : ℕ) : Prop :=
  sgxTime < uintSize ∧ config.sgxtLowerbound ≤ sgxTime ∧ sgxTime ≤ config.sgxmax

/-- The tier of a node, as the users of the table ask for it. -/
def tierOf (config : Configuration) (node : Node) : Except Abort ℤ :=
  calcTierNumberInt node config.nTiers (config.sgxmax % uintSize)

/-- The SGX times that the server accepts have the tiers from 0 to `n_tiers - 1`, in order, and each of
these is the tier of one of them. -/
structure CoversTiers (config : Configuration) : Prop where
  inRange : ∀ node : Node, config.Accepts node.sgxTime →
    ∃ tier, config.tierOf node = .ok tier ∧ 0 ≤ tier ∧ tier < config.nTiers
  monotone : ∀ {node node' : Node} {tier tier' : ℤ}, config.Accepts node.sgxTime →
    config.Accepts node'.sgxTime →
    node.sgxTime ≤ node'.sgxTime → config.tierOf node = .ok tier → config.tierOf node' = .ok tier' →
      tier ≤ tier'
  onto : ∀ tier : ℤ, 0 ≤ tier → tier < config.nTiers →
    ∃ node, config.Accepts node.sgxTime ∧ config.tierOf node = .ok tier

end Configuration

/-- What is returned is the tier, and it is in range. -/
theorem calcTierNumberInt_eq_ok {node : Node} {totalTiers sgxMax : ℕ} {tier : ℤ} :
    calcTierNumberInt node totalTiers sgxMax = .ok tier ↔
      ceilf (totalTiers * node.sgxTime) sgxMax < intSize ∧ tier = tierNumber node totalTiers sgxMax ∧
        0 ≤ tier ∧ tier < totalTiers := by
  constructor
  · intro h
    obtain ⟨_, hint, h⟩ := Except.bind_eq_ok.mp h
    obtain ⟨_, hrange, h⟩ := Except.bind_eq_ok.mp h
    cases h
    exact ⟨ensure_eq_ok.mp hint, rfl, ensure_eq_ok.mp hrange⟩
  · rintro ⟨hint, rfl, hrange⟩
    rw [calcTierNumberInt, ensure_of hint, Except.ok_bind, calcTierNumber, ensure_of hrange]
    rfl

theorem ceilf_mono {a b n : ℕ} (hn : 0 < n) (h : a ≤ b) : ceilf a n ≤ ceilf b n := by
  rw [ceilf_le hn]
  exact h.trans ((ceilf_le hn).mp le_rfl)

/-- The largest time below the upper end of a tier is in the tier, if a tier is not narrower than 1. -/
theorem ceilf_mul_div {n m k : ℕ} (hn : 0 < n) (hnm : n ≤ m) : ceilf (n * (m * (k + 1) / n)) m = k + 1 := by
  have hm : 0 < m := hn.trans_le hnm
  have hle : n * (m * (k + 1) / n) ≤ m * (k + 1) := Nat.mul_div_le _ _
  have hlt : m * (k + 1) < n * (m * (k + 1) / n + 1) := Nat.lt_mul_div_succ _ hn
  apply Nat.le_antisymm
  · exact (ceilf_le hm).mpr hle
  · apply Nat.lt_of_not_le
    rw [ceilf_le hm]
    rw [Nat.mul_succ, Nat.mul_succ] at hlt
    rw [Nat.mul_succ] at hle ⊢
    omega

section

variable {config : Configuration} {node : Node}

/-- The largest time that is accepted has the highest tier, so that the maximum of `calc_tier_number` is
that time. -/
theorem Configuration.CoversTiers.sgxmax_eq (h : config.CoversTiers) :
    config.nTiers < intSize ∧ min config.sgxmax (uintSize - 1) = config.sgxmax % uintSize := by
  have htiers := config.nTiers_pos
  obtain ⟨lowest, ⟨hlowest, hlower, hupper⟩, -⟩ := h.onto 0 le_rfl (by exact_mod_cast htiers)
  let highest : Node := { lowest with sgxTime := min config.sgxmax (uintSize - 1) }
  have haccepts : config.Accepts highest.sgxTime := by
    refine ⟨?_, ?_, min_le_left _ _⟩
    · exact (min_le_right _ _).trans_lt (by decide)
    · exact hlower.trans (le_min hupper (Nat.le_sub_one_of_lt hlowest))
  obtain ⟨tier, htier, -⟩ := h.inRange highest haccepts
  obtain ⟨hint, rfl, hnonneg, hlt⟩ := calcTierNumberInt_eq_ok.mp htier
  have hmod : config.sgxmax % uintSize ≤ min config.sgxmax (uintSize - 1) :=
    le_min (Nat.mod_le _ _) (Nat.le_sub_one_of_lt (Nat.mod_lt _ (by decide)))
  have hpos : 0 < config.sgxmax % uintSize := by
    apply Nat.pos_of_ne_zero
    intro hzero
    rw [tierNumber, hzero, ceilf, ceilDiv_zero] at hnonneg
    exact absurd hnonneg (by decide)
  have hle : highest.sgxTime ≤ config.sgxmax % uintSize := by
    apply sgxTime_le_of_calcTierNumber htiers hpos
    obtain ⟨_, -, hok⟩ := Except.bind_eq_ok.mp htier
    exact hok
  have heq : min config.sgxmax (uintSize - 1) = config.sgxmax % uintSize := Nat.le_antisymm hle hmod
  refine ⟨?_, heq⟩
  have hfull : ceilf (config.nTiers * highest.sgxTime) (config.sgxmax % uintSize) = config.nTiers := by
    change ceilf (config.nTiers * min config.sgxmax (uintSize - 1)) _ = _
    rw [heq, Nat.mul_comm]
    exact smul_ceilDiv hpos config.nTiers
  rwa [hfull] at hint

/-- The lowest tier is that of a time that is accepted, and so of the lower bound. -/
theorem Configuration.CoversTiers.mul_le (h : config.CoversTiers) :
    config.nTiers * config.sgxtLowerbound ≤ config.sgxmax % uintSize := by
  have htiers := config.nTiers_pos
  obtain ⟨lowest, ⟨-, hlower, -⟩, htier⟩ := h.onto 0 le_rfl (by exact_mod_cast htiers)
  obtain ⟨-, hzero, -⟩ := calcTierNumberInt_eq_ok.mp htier
  have hone : ceilf (config.nTiers * lowest.sgxTime) (config.sgxmax % uintSize) = 1 := by
    unfold tierNumber at hzero
    omega
  have hpos : 0 < config.sgxmax % uintSize := by
    apply Nat.pos_of_ne_zero
    intro hmax
    rw [hmax, ceilf, ceilDiv_zero] at hone
    cases hone
  have hle := (ceilf_le hpos).mp hone.le
  rw [Nat.mul_one] at hle
  exact (Nat.mul_le_mul_left _ hlower).trans hle

/-- The times are those up to the maximum, and there is room for a tier below the lower bound. -/
theorem Configuration.coversTiers_of_le (hint : config.nTiers < intSize)
    (hmax : min config.sgxmax (uintSize - 1) = config.sgxmax % uintSize)
    (hle : config.nTiers * config.sgxtLowerbound ≤ config.sgxmax % uintSize) : config.CoversTiers := by
  have htiers := config.nTiers_pos
  have hlower := config.lowerbound_pos
  have hnm : config.nTiers ≤ config.sgxmax % uintSize := (Nat.le_mul_of_pos_right _ hlower).trans hle
  have hpos : 0 < config.sgxmax % uintSize := htiers.trans_le hnm
  have hupper : ∀ {t}, config.Accepts t → t ≤ config.sgxmax % uintSize := fun h => by
    rw [← hmax]
    exact le_min h.2.2 (Nat.le_sub_one_of_lt h.1)
  have hok : ∀ node : Node, config.Accepts node.sgxTime →
      config.tierOf node = .ok (tierNumber node config.nTiers (config.sgxmax % uintSize)) := by
    intro node h
    have htier := calcTierNumber_ok htiers (hlower.trans_le h.2.1) (hupper h)
    have hceil : ceilf (config.nTiers * node.sgxTime) (config.sgxmax % uintSize) ≤ config.nTiers := by
      rw [ceilf_le hpos, Nat.mul_comm]
      exact Nat.mul_le_mul_right _ (hupper h)
    rw [tierOf, calcTierNumberInt, ensure_of (hceil.trans_lt hint), Except.ok_bind, htier]
  constructor
  · intro node h
    obtain ⟨-, -, hrange⟩ := calcTierNumberInt_eq_ok.mp (hok node h)
    exact ⟨_, hok node h, hrange⟩
  · intro node node' tier tier' h h' hlt htier htier'
    cases (hok node h).symm.trans htier
    cases (hok node' h').symm.trans htier'
    have hmono := ceilf_mono hpos (Nat.mul_le_mul_left config.nTiers hlt)
    unfold tierNumber
    omega
  · intro tier hnonneg hlt
    obtain ⟨k, rfl⟩ := Int.eq_ofNat_of_zero_le hnonneg
    have hk : k < config.nTiers := by exact_mod_cast hlt
    let time := config.sgxmax % uintSize * (k + 1) / config.nTiers
    have htime : time ≤ config.sgxmax % uintSize := by
      apply Nat.div_le_of_le_mul
      rw [Nat.mul_comm config.nTiers]
      exact Nat.mul_le_mul_left _ hk
    have haccepts : config.Accepts time := by
      refine ⟨htime.trans_lt (Nat.mod_lt _ (by decide)), ?_, htime.trans (Nat.mod_le _ _)⟩
      apply (Nat.le_div_iff_mul_le htiers).mpr
      rw [Nat.mul_comm]
      exact hle.trans (Nat.le_mul_of_pos_right _ (Nat.succ_pos k))
    refine ⟨⟨0, 0, time, 0, 0⟩, haccepts, ?_⟩
    rw [hok _ haccepts, tierNumber, ceilf_mul_div htiers hnm]
    congr 1
    push_cast
    omega

/-- The accepted times have all the tiers, in order, exactly when the lower bound times the number of
tiers is not more than the upper bound. Where the upper bound is no `uint`, it has to be taken for the
largest one; and the number of tiers has to be an `int`. -/
theorem coversTiers_iff (config : Configuration) :
    config.CoversTiers ↔
      config.nTiers < intSize ∧ min config.sgxmax (uintSize - 1) = config.sgxmax % uintSize ∧
        config.nTiers * config.sgxtLowerbound ≤ config.sgxmax % uintSize := by
  constructor
  · intro h
    obtain ⟨hint, hmax⟩ := h.sgxmax_eq
    exact ⟨hint, hmax, h.mul_le⟩
  · rintro ⟨hint, hmax, hle⟩
    exact Configuration.coversTiers_of_le hint hmax hle

end

theorem ten_lt_sizeTSize : 10 < sizeTSize := by decide

/-- SGX times from 5 to 10, in five tiers. -/
def fiveToTen : Configuration :=
  ⟨5, 10, 5, ten_lt_sizeTSize, by decide, by decide, by decide, by decide, by decide⟩

/-- The tier of 5 is 2, and no accepted time is in the tiers 0 and 1. -/
theorem not_coversTiers_fiveToTen :
    fiveToTen.tierOf ⟨0, 0, 5, 0, 5⟩ = .ok 2 ∧ ¬fiveToTen.CoversTiers := by
  refine ⟨by decide, fun h => ?_⟩
  have hle := h.mul_le
  exact absurd hle (by decide)

end PoQ
