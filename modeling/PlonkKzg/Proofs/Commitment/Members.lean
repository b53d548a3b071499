import PlonkKzg.Proofs.Pairing.Members
import PlonkKzg.Proofs.Prover.Openings

/-!
# The verifier of the curves

The parameters of a scheme have the type of all points of the twisted curve, but those of the scheme
of a secret are members of the second group. So the verifier adds up pairings of members, and what is
known of groups of prime order holds for the curves, as far as the pairing is bilinear and not zero
on the base points.

* `Scheme.ofMembers`, `Scheme.ofMembers_ofSecret` — schemes of members as schemes of points;
* `Scheme.verify_ofMembers` — the verifier does not see the difference;
* `Scheme.verify_points_eq_ok_iff`, `Scheme.verifyOpening_points_eq_ok_iff`,
  `Scheme.verifyBatch_points_eq_ok_iff` — what it accepts;
* `Circuit.openings_verify_points` — the openings of proofs among it.
-/

namespace PlonkKzg

namespace Scheme

/-- A scheme of members as one of points. -/
def ofMembers (scheme : Scheme G1 G2.members) : Scheme G1 G2 :=
  ⟨scheme.g1, scheme.g2.map Subtype.val⟩

/-- Forgetting the membership proofs of honest parameters gives the honest parameters. -/
theorem ofMembers_ofSecret (d : Nat) (s : Scalar) :
    (ofSecret d s : Scheme G1 G2.members).ofMembers = ofSecret d s := rfl

variable (scheme : Scheme G1 G2.members)

theorem commit_ofMembers : scheme.ofMembers.commit = scheme.commit := rfl

theorem openAt_ofMembers (x : Scalar) (p : Poly) :
    scheme.ofMembers.openAt x p = scheme.openAt x p := rfl

theorem batchOpenAt_ofMembers (x v : Scalar) (ps : List Poly) :
    scheme.ofMembers.batchOpenAt x v ps = scheme.batchOpenAt x v ps := rfl

/-- A sum of pairings of members is that sum in the ambient groups. -/
theorem pairingSum_coe (Ps : List G1) (Qs : List G2.members) :
    ((pairingSum Ps Qs : Gt.members) : Gt) = pairingSum Ps (Qs.map Subtype.val) := by
  rw [pairingSum, pairingSum, AddSubmonoid.coe_list_sum, List.map_zipWith, List.zipWith_map_right]
  rfl

/-- A sum of members is zero as a sum of values of pairings if it is zero among the members. -/
theorem verify_ofMembers (C : G1) (x y : Scalar) (W : G1) :
    scheme.ofMembers.verify C x y W = scheme.verify C x y W := by
  obtain ⟨_ | ⟨g, gs⟩, _ | ⟨h, _ | ⟨sh, hs⟩⟩⟩ := scheme
  case cons.cons.cons =>
    have hsum := pairingSum_coe [C - y • g + x • W, -W] [h, sh]
    have hzero : (pairingSum [C - y • g + x • W, -W] [h, sh] : Gt.members) = 0 ↔
        (pairingSum [C - y • g + x • W, -W] [h.1, sh.1] : Gt) = 0 := by
      rw [← ZeroMemClass.coe_eq_zero, hsum]
      rfl
    simp only [verify, ofMembers, List.map_cons, hzero]
  all_goals rfl

/-- Verification does not see whether the parameters carry membership proofs. -/
theorem verifyOpening_ofMembers (C : G1) (o : Opening G1) :
    scheme.ofMembers.verifyOpening C o = scheme.verifyOpening C o :=
  scheme.verify_ofMembers ..

theorem verifyBatch_ofMembers (Cs : List G1) (v : Scalar) (o : BatchOpening G1) :
    scheme.ofMembers.verifyBatch Cs v o = scheme.verifyBatch Cs v o := by
  rw [verifyBatch, verifyBatch, verify_ofMembers]

/-! ### What is accepted -/

section

variable [Pairing.Bilinear G1 G2.members Gt.members] {d : Nat} {s x v : Scalar}

theorem verifyOpening_openAt_points {p : Poly} {C : G1} {o : Opening G1}
    (hC : (ofSecret d s : Scheme G1 G2).commit p = .ok C)
    (ho : (ofSecret d s : Scheme G1 G2).openAt x p = .ok o) :
    (ofSecret d s : Scheme G1 G2).verifyOpening C o = .ok () := by
  rw [← ofMembers_ofSecret] at hC ho ⊢
  rw [commit_ofMembers] at hC
  rw [openAt_ofMembers] at ho
  rw [verifyOpening_ofMembers]
  exact verifyOpening_openAt hC ho

theorem verifyBatch_batchOpenAt_points {ps : List Poly} {Cs : List G1} {o : BatchOpening G1}
    (hCs : ps.mapM (ofSecret d s : Scheme G1 G2).commit = .ok Cs)
    (ho : (ofSecret d s : Scheme G1 G2).batchOpenAt x v ps = .ok o) :
    (ofSecret d s : Scheme G1 G2).verifyBatch Cs v o = .ok () := by
  rw [← ofMembers_ofSecret] at hCs ho ⊢
  rw [commit_ofMembers] at hCs
  rw [batchOpenAt_ofMembers] at ho
  rw [verifyBatch_ofMembers]
  exact verifyBatch_batchOpenAt hCs ho

variable (hgenerator : Gt.generator ≠ 0)
include hgenerator

/-- A generator that pairs to something other than zero is enough, the orders being prime. -/
theorem nondegenerate_points : Pairing.Nondegenerate G1 G2.members Gt.members := by
  apply Pairing.nondegenerate_of_generator
  intro hzero
  rw [← ZeroMemClass.coe_eq_zero, Pairing.coe_pair_members, G2.coe_generator_members] at hzero
  exact hgenerator hzero

/-- The verifier accepts a witness if and only if it satisfies one equation in the first group. -/
theorem verify_points_eq_ok_iff {C W : G1} {y : Scalar} :
    (ofSecret d s : Scheme G1 G2).verify C x y W = .ok () ↔
      C - y • Generator.generator = (s - x) • W := by
  have := nondegenerate_points hgenerator
  rw [← ofMembers_ofSecret, verify_ofMembers]
  exact verify_ofSecret_eq_ok_iff

/-- The witness of an opening is accepted with the value of the polynomial alone. -/
theorem verifyOpening_points_eq_ok_iff {p : Poly} {C : G1} {o : Opening G1}
    (hC : (ofSecret d s : Scheme G1 G2).commit p = .ok C)
    (ho : (ofSecret d s : Scheme G1 G2).openAt x p = .ok o) {y : Scalar} :
    (ofSecret d s : Scheme G1 G2).verifyOpening C ⟨x, y, o.witness⟩ = .ok () ↔ y = p.eval x := by
  have := nondegenerate_points hgenerator
  rw [← ofMembers_ofSecret] at hC ho ⊢
  rw [commit_ofMembers] at hC
  rw [openAt_ofMembers] at ho
  rw [verifyOpening_ofMembers]
  refine verifyOpening_eq_ok_iff hC ?_
  exact ho

/-- That of an opening of several polynomials with all values of the same weighted sum. -/
theorem verifyBatch_points_eq_ok_iff {ps : List Poly} {Cs : List G1} {o : BatchOpening G1}
    (hCs : ps.mapM (ofSecret d s : Scheme G1 G2).commit = .ok Cs)
    (ho : (ofSecret d s : Scheme G1 G2).batchOpenAt x v ps = .ok o) {ys : List Scalar}
    (hys : ys.length = ps.length) :
    (ofSecret d s : Scheme G1 G2).verifyBatch Cs v ⟨x, ys, o.witness⟩ = .ok () ↔
      weighted (· * ·) v ys = weighted (· * ·) v (ps.map (·.eval x)) := by
  have := nondegenerate_points hgenerator
  rw [← ofMembers_ofSecret] at hCs ho ⊢
  rw [commit_ofMembers] at hCs
  rw [batchOpenAt_ofMembers] at ho
  rw [verifyBatch_ofMembers]
  refine verifyBatch_eq_ok_iff hCs ?_ hys
  exact ho

end

end Scheme

/-! ### Proofs -/

/-- The openings of every proof over the curves are accepted, by the scheme and by its verifier's
part. -/
theorem Circuit.openings_verify_points [Pairing.Bilinear G1 G2.members Gt.members] {d : Nat}
    {g : Rng} {scheme : Scheme G1 G2} (hsetup : ((Scheme.setup d).run g).1 = .ok scheme)
    {c : Circuit} {pd : Preprocessed G1 G2} (hpd : c.preprocess scheme = .ok pd) {w : List Scalar}
    {ch : Challenges} {P : Proof G1} (hP : pd.proveWith c w ch = .ok P) :
    ∀ verifier ∈ [scheme, scheme.shrink],
      verifier.verifyBatch P.commitments.toList ch.bundle P.opening = .ok () ∧
      verifier.verifyOpening P.commitments.accumulator P.openingNext = .ok () := by
  obtain ⟨-, rfl⟩ := Scheme.setup_eq_ok_iff.1 hsetup
  have hscheme := (describes_of_preprocess hpd).scheme
  obtain ⟨R, h⟩ := Preprocessed.proveWith_eq_ok_iff.1 hP
  have hcommitments := h.commitments
  have haccumulator := h.commit_accumulator
  have hopening := h.opening
  have hopeningNext := h.openingNext
  rw [hscheme] at hcommitments haccumulator hopening hopeningNext
  have hbatch := Scheme.verifyBatch_batchOpenAt_points hcommitments hopening
  have hnext := Scheme.verifyOpening_openAt_points haccumulator hopeningNext
  intro verifier hverifier
  rcases List.mem_pair.1 hverifier with rfl | rfl
  · exact ⟨hbatch, hnext⟩
  · rw [Scheme.verifyBatch_shrink, Scheme.verifyOpening_shrink]
    exact ⟨hbatch, hnext⟩

end PlonkKzg
