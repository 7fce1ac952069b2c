/-! Finite sets of small natural numbers. Number `i` belongs to a set when bit `i` is on, so equal
sets are equal values and a union is one operation on words. -/

namespace CommandLang

structure IdSet where
  bits : Nat
deriving DecidableEq, Inhabited

namespace IdSet

instance : Membership Nat IdSet := ⟨fun s i => s.bits.testBit i = true⟩

instance (i : Nat) (s : IdSet) : Decidable (i ∈ s) := inferInstanceAs (Decidable (_ = true))

instance : EmptyCollection IdSet := ⟨⟨0⟩⟩

instance : Union IdSet := ⟨fun s t => ⟨s.bits ||| t.bits⟩⟩

theorem mem_iff {i : Nat} {s : IdSet} : i ∈ s ↔ s.bits.testBit i = true := Iff.rfl

@[ext] theorem ext {s t : IdSet} (same : ∀ i, i ∈ s ↔ i ∈ t) : s = t := by
  have equal : s.bits = t.bits := Nat.eq_of_testBit_eq fun i => Bool.eq_iff_iff.2 (same i)
  cases s; cases t; simpa using equal

@[simp] theorem not_mem_empty (i : Nat) : i ∉ (∅ : IdSet) := by
  change ¬ Nat.testBit 0 i = true
  simp

@[simp] theorem mem_union {i : Nat} {s t : IdSet} : i ∈ s ∪ t ↔ i ∈ s ∨ i ∈ t := by
  change (s.bits ||| t.bits).testBit i = true ↔ _
  rw [Nat.testBit_or, Bool.or_eq_true]
  exact Iff.rfl

def insert (s : IdSet) (i : Nat) : IdSet := ⟨s.bits ||| 1 <<< i⟩

@[simp] theorem mem_insert {i j : Nat} {s : IdSet} : j ∈ s.insert i ↔ j ∈ s ∨ j = i := by
  change (s.bits ||| 1 <<< i).testBit j = true ↔ _
  rw [Nat.testBit_or, Bool.or_eq_true, Nat.one_shiftLeft, Nat.testBit_two_pow, decide_eq_true_eq]
  exact or_congr Iff.rfl eq_comm

def diff (s t : IdSet) : IdSet := ⟨s.bits ^^^ (s.bits &&& t.bits)⟩

@[simp] theorem mem_diff {i : Nat} {s t : IdSet} : i ∈ s.diff t ↔ i ∈ s ∧ i ∉ t := by
  change (s.bits ^^^ (s.bits &&& t.bits)).testBit i = true ↔ _
  simp only [Nat.testBit_xor, Nat.testBit_and, mem_iff]
  cases s.bits.testBit i <;> cases t.bits.testBit i <;> simp

def inter (s t : IdSet) : IdSet := ⟨s.bits &&& t.bits⟩

@[simp] theorem mem_inter {i : Nat} {s t : IdSet} : i ∈ s.inter t ↔ i ∈ s ∧ i ∈ t := by
  change (s.bits &&& t.bits).testBit i = true ↔ _
  rw [Nat.testBit_and, Bool.and_eq_true]
  exact Iff.rfl

def ofList (ids : List Nat) : IdSet := ids.foldl insert ∅

theorem mem_foldl_insert {i : Nat} (ids : List Nat) (s : IdSet) :
    i ∈ ids.foldl insert s ↔ i ∈ s ∨ i ∈ ids := by
  induction ids generalizing s with
  | nil => simp
  | cons j rest ih => simp [ih, or_assoc]

@[simp] theorem mem_ofList {i : Nat} {ids : List Nat} : i ∈ ofList ids ↔ i ∈ ids := by
  simp [ofList, mem_foldl_insert]

def unions (sets : List IdSet) : IdSet := sets.foldl (· ∪ ·) ∅

theorem mem_foldl_union {i : Nat} (sets : List IdSet) (s : IdSet) :
    i ∈ sets.foldl (· ∪ ·) s ↔ i ∈ s ∨ ∃ t ∈ sets, i ∈ t := by
  induction sets generalizing s with
  | nil => simp
  | cons t rest ih => simp [ih, or_assoc]

@[simp] theorem mem_unions {i : Nat} {sets : List IdSet} : i ∈ unions sets ↔ ∃ t ∈ sets, i ∈ t := by
  simp [unions, mem_foldl_union]

/-- The places of the bits that are on in `bits`, which has `1 <<< depth` places from `offset` on, in
front of `above`. -/
def collect : (depth offset bits : Nat) → (above : List Nat) → List Nat
  | 0, offset, bits, above => if bits = 0 then above else offset :: above
  | depth + 1, offset, bits, above =>
    if bits = 0 then above
    else
      let high := bits >>> (1 <<< depth)
      let low := bits ^^^ high <<< (1 <<< depth)
      collect depth offset low (collect depth (offset + 1 <<< depth) high above)

def toList (s : IdSet) : List Nat := collect ((s.bits.log2 + 1).log2 + 1) 0 s.bits []

private def Within (places bits : Nat) : Prop := ∀ i, bits.testBit i = true → i < places

private theorem testBit_low (bits half i : Nat) :
    (bits ^^^ (bits >>> half) <<< half).testBit i = (bits.testBit i && decide (i < half)) := by
  simp only [Nat.testBit_xor, Nat.testBit_shiftLeft, Nat.testBit_shiftRight]
  by_cases inside : i < half
  · have below : ¬ half ≤ i := by omega
    simp [inside, below]
  · have above : half ≤ i := by omega
    simp [inside, above]

private theorem Within.low (bits half : Nat) : Within half (bits ^^^ (bits >>> half) <<< half) := by
  intro i on
  rw [testBit_low, Bool.and_eq_true, decide_eq_true_eq] at on
  exact on.2

private theorem Within.high {bits half : Nat} (within : Within (2 * half) bits) : Within half (bits >>> half) := by
  intro i on
  rw [Nat.testBit_shiftRight] at on
  have below := within _ on
  omega

private theorem mem_collect {i : Nat} (depth offset bits : Nat) (above : List Nat)
    (within : Within (1 <<< depth) bits) :
    i ∈ collect depth offset bits above ↔ (offset ≤ i ∧ bits.testBit (i - offset) = true) ∨ i ∈ above := by
  induction depth generalizing offset bits above with
  | zero =>
    have first : ∀ place, bits.testBit place = true ↔ bits ≠ 0 ∧ place = 0 := by
      intro place
      constructor
      · intro on
        exact ⟨by rintro rfl; simp at on, Nat.lt_one_iff.1 (within place on)⟩
      · rintro ⟨nonzero, rfl⟩
        obtain ⟨place, on⟩ := Nat.exists_testBit_of_ne_zero nonzero
        rwa [← Nat.lt_one_iff.1 (within place on)]
    rw [collect, first]
    by_cases zero : bits = 0
    · simp [zero]
    · simp only [zero, if_false, List.mem_cons, ne_eq, not_false_eq_true, true_and]
      refine or_congr ?_ Iff.rfl
      omega
  | succ depth ih =>
    by_cases zero : bits = 0
    · simp [collect, zero]
    · rw [Nat.shiftLeft_succ] at within
      rw [collect, if_neg zero, ih _ _ _ (.low bits _), ih _ _ _ within.high, testBit_low,
        Nat.testBit_shiftRight, ← or_assoc]
      refine or_congr ?_ Iff.rfl
      simp only [Bool.and_eq_true, decide_eq_true_eq]
      generalize 1 <<< depth = half
      constructor
      · rintro (⟨after, on, _⟩ | ⟨after, on⟩)
        · exact ⟨after, on⟩
        · refine ⟨by omega, ?_⟩
          rwa [show half + (i - (offset + half)) = i - offset by omega] at on
      · rintro ⟨after, on⟩
        by_cases low : i - offset < half
        · exact .inl ⟨after, on, low⟩
        · refine .inr ⟨by omega, ?_⟩
          rwa [show half + (i - (offset + half)) = i - offset by omega]

private theorem within_log2 (bits : Nat) : Within (1 <<< ((bits.log2 + 1).log2 + 1)) bits := by
  intro i on
  have least := Nat.ge_two_pow_of_testBit on
  have nonzero : bits ≠ 0 := by
    rintro rfl
    simp at on
  have places : i ≤ bits.log2 := (Nat.le_log2 nonzero).2 least
  have wide : bits.log2 + 1 < 1 <<< ((bits.log2 + 1).log2 + 1) := by
    rw [Nat.one_shiftLeft]
    exact Nat.lt_log2_self
  omega

@[simp] theorem mem_toList {i : Nat} {s : IdSet} : i ∈ s.toList ↔ i ∈ s := by
  rw [toList, mem_collect _ _ _ _ (within_log2 s.bits)]
  simp [mem_iff]

private theorem sorted_collect (depth offset bits : Nat) (above : List Nat) (within : Within (1 <<< depth) bits)
    (sorted : above.Pairwise (· < ·)) (behind : ∀ i ∈ above, offset + 1 <<< depth ≤ i) :
    (collect depth offset bits above).Pairwise (· < ·) := by
  induction depth generalizing offset bits above with
  | zero =>
    rw [collect]
    split
    · exact sorted
    · exact List.pairwise_cons.2 ⟨fun i member => behind i member, sorted⟩
  | succ depth ih =>
    rw [Nat.shiftLeft_succ] at within behind
    rw [collect]
    split
    · exact sorted
    · refine ih _ _ _ (.low bits _) (ih _ _ _ within.high sorted ?_) ?_
      · intro i member
        have far := behind i member
        omega
      · intro i member
        rcases (mem_collect _ _ _ _ within.high).1 member with ⟨far, _⟩ | far
        · exact far
        · have outside := behind i far
          omega

theorem nodup_toList (s : IdSet) : s.toList.Nodup :=
  (sorted_collect _ _ _ _ (within_log2 s.bits) .nil (by simp)).imp Nat.ne_of_lt

def least? (s : IdSet) : Option Nat := s.toList.head?

example : (ofList [5, 0, 3, 5]).toList = [0, 3, 5] := by decide

end IdSet

end CommandLang
