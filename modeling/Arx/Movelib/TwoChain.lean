import Mathlib.Tactic

/-!
# Two-chain commits

A block is committed by a quorum of votes for a child whose round is the next one. If the voters
outside of the faulty ones keep the rules, all committed blocks lie on one branch.
-/

namespace Movelib

/-- Two quorums of more than two thirds of the weight share a member outside of any set that is
light enough for its complement to be a quorum. -/
theorem quorums_meet {α : Type} [DecidableEq α] {w : α → ℕ} {U A B F : Finset α} {q : ℕ}
    (hA : A ⊆ U) (hB : B ⊆ U) (hqA : q ≤ ∑ a ∈ A, w a) (hqB : q ≤ ∑ a ∈ B, w a)
    (hq : 2 * ∑ a ∈ U, w a < 3 * q) (hF : ∑ a ∈ F, w a ≤ ∑ a ∈ U, w a - q) :
    ∃ a ∈ A, a ∈ B ∧ a ∉ F := by
  by_contra hnone
  push Not at hnone
  have hinter : ∑ a ∈ A ∩ B, w a ≤ ∑ a ∈ F, w a := by
    apply Finset.sum_le_sum_of_subset
    intro a ha
    obtain ⟨haA,haB⟩ := Finset.mem_inter.mp ha
    exact hnone a haA haB
  have hunion : ∑ a ∈ A ∪ B, w a ≤ ∑ a ∈ U, w a :=
    Finset.sum_le_sum_of_subset (Finset.union_subset hA hB)
  have hAU : ∑ a ∈ A, w a ≤ ∑ a ∈ U, w a := Finset.sum_le_sum_of_subset hA
  have hsum : ∑ a ∈ A ∪ B, w a + ∑ a ∈ A ∩ B, w a = ∑ a ∈ A, w a + ∑ a ∈ B, w a :=
    Finset.sum_union_inter
  omega

structure TwoChain (V X I : Type) where
  id : X → I
  round : X → ℕ
  parentId : X → I
  parentRound : X → ℕ
  /-- The block that is certified without votes, in round zero. -/
  genesis : I
  honest : V → Prop
  Quorum : Set V → Prop
  Voted : V → X → Prop
  /-- A voter gives up a round, with the round of the highest certificate it knows. -/
  TimedOut : V → ℕ → ℕ → Prop

namespace TwoChain

variable {V X I : Type} (P : TwoChain V X I)

def QuorumVoted (x : X) : Prop := ∃ A, P.Quorum A ∧ ∀ v ∈ A, P.honest v → P.Voted v x

def Certified (i : I) (r : ℕ) : Prop :=
  (i = P.genesis ∧ r = 0) ∨ ∃ x, P.QuorumVoted x ∧ P.id x = i ∧ P.round x = r

/-- The honest voters of a quorum have given up the round, with certificates of rounds up to `k`. -/
def TimeoutCertified (r k : ℕ) : Prop :=
  ∃ A, P.Quorum A ∧ ∀ v ∈ A, P.honest v → ∃ k' ≤ k, P.TimedOut v r k'

def Parent (i j : I) : Prop := ∃ v x, P.honest v ∧ P.Voted v x ∧ P.parentId x = i ∧ P.id x = j

def Ancestor : I → I → Prop := Relation.ReflTransGen P.Parent

structure Valid : Prop where
  meet : ∀ A B, P.Quorum A → P.Quorum B → ∃ v ∈ A, v ∈ B ∧ P.honest v
  unique : ∀ v x y, P.honest v → P.Voted v x → P.Voted v y → P.round x = P.round y → x = y
  parent_lt : ∀ v x, P.honest v → P.Voted v x → P.parentRound x < P.round x
  parent_certified : ∀ v x, P.honest v → P.Voted v x → P.Certified (P.parentId x) (P.parentRound x)
  /-- A vote is for the round after that of the parent, or for the round after one that was given up
  with certificates not above the parent. -/
  rule : ∀ v x, P.honest v → P.Voted v x → P.round x = P.parentRound x + 1 ∨
    ∃ r k, P.TimeoutCertified r k ∧ P.round x = r + 1 ∧ k ≤ P.parentRound x
  /-- Who gives up a round has a certificate not below the parents of its votes up to the round. -/
  lock : ∀ v x r k, P.honest v → P.Voted v x → P.TimedOut v r k → P.round x ≤ r →
    P.parentRound x ≤ k

variable {P} {x y : X} {i : I} {r : ℕ}

section

variable (h : P.Valid) (hx : P.QuorumVoted x)

include h hx

theorem Valid.quorumVoted_unique (hy : P.QuorumVoted y) (hr : P.round x = P.round y) : x = y := by
  obtain ⟨A,hA,hAx⟩ := hx
  obtain ⟨B,hB,hBy⟩ := hy
  obtain ⟨v,hvA,hvB,hv⟩ := h.meet A B hA hB
  exact h.unique v x y hv (hAx v hvA hv) (hBy v hvB hv) hr

/-- Some honest voter has voted for a statement with a quorum. -/
theorem Valid.exists_voter : ∃ v, P.honest v ∧ P.Voted v x := by
  obtain ⟨A,hA,hAx⟩ := hx
  obtain ⟨v,hvA,-,hv⟩ := h.meet A A hA hA
  exact ⟨v,hv,hAx v hvA hv⟩

/-- No round from that of a statement on is given up with certificates below its parent. -/
theorem Valid.not_timeoutCertified {k : ℕ} (hr : P.round x ≤ r) (hk : k < P.parentRound x) :
    ¬ P.TimeoutCertified r k := by
  rintro ⟨B,hB,hBk⟩
  obtain ⟨A,hA,hAx⟩ := hx
  obtain ⟨v,hvA,hvB,hv⟩ := h.meet A B hA hB
  obtain ⟨k',hk',htimed⟩ := hBk v hvB hv
  have hlock := h.lock v x r k' hv (hAx v hvA hv) htimed hr
  omega

/-- Every block certified in the round of a committed block or later descends from it. -/
theorem Valid.certified_descends (hcommit : P.round x = P.parentRound x + 1) (hi : P.Certified i r)
    (hr : P.parentRound x ≤ r) : P.Ancestor (P.parentId x) i := by
  -- by strong induction on the round of the certified block
  induction r using Nat.strong_induction_on generalizing i with
  | _ r ih =>
    obtain ⟨v,hv,hvx⟩ := h.exists_voter hx
    have hparent := h.parent_certified v x hv hvx
    rcases hi with ⟨rfl,rfl⟩ | ⟨y,hy,rfl,rfl⟩
    · rcases hparent with ⟨hg,-⟩ | ⟨z,hz,-,hzr⟩
      · rw [hg]
        exact .refl
      · obtain ⟨u,hu,huz⟩ := h.exists_voter hz
        have hlt := h.parent_lt u z hu huz
        omega
    · obtain ⟨u,hu,huy⟩ := h.exists_voter hy
      have hlt := h.parent_lt u y hu huy
      have hstep : P.Parent (P.parentId y) (P.id y) := ⟨u,y,hu,huy,rfl,rfl⟩
      by_cases hsame : P.round y = P.parentRound x
      · -- the committed block itself
        rcases hparent with ⟨-,hzero⟩ | ⟨z,hz,hzi,hzr⟩
        · omega
        · rw [← hzi,h.quorumVoted_unique hz hy (hzr.trans hsame.symm)]
          exact .refl
      · by_cases hnext : P.round y = P.round x
        · rw [h.quorumVoted_unique hx hy hnext.symm]
          exact .single hstep
        · -- a later round: the parent of the block is not below the committed block
          have hpr : P.parentRound x ≤ P.parentRound y := by
            by_contra hbelow
            rcases h.rule u y hu huy with hrule | ⟨r',k,htc,hr',hk⟩
            · omega
            · exact h.not_timeoutCertified hx (by omega) (by omega) htc
          exact (ih (P.parentRound y) hlt (h.parent_certified u y hu huy) hpr).tail hstep

/-- Two committed blocks lie on one branch. -/
theorem Valid.agreement (hy : P.QuorumVoted y) (hcx : P.round x = P.parentRound x + 1)
    (hcy : P.round y = P.parentRound y + 1) :
    P.Ancestor (P.parentId x) (P.parentId y) ∨ P.Ancestor (P.parentId y) (P.parentId x) := by
  obtain ⟨u,hu,hux⟩ := h.exists_voter hx
  obtain ⟨v,hv,hvy⟩ := h.exists_voter hy
  rcases le_total (P.parentRound x) (P.parentRound y) with hle | hle
  · exact .inl (h.certified_descends hx hcx (h.parent_certified v y hv hvy) hle)
  · exact .inr (h.certified_descends hy hcy (h.parent_certified u x hu hux) hle)

end

end TwoChain

end Movelib
