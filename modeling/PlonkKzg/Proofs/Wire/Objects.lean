import PlonkKzg.Circuit.Basic
import PlonkKzg.Proofs.Curve.Subgroup
import PlonkKzg.Proofs.Wire.Element
import PlonkKzg.Prover.Proof

/-!
# Encoded objects are read as they were written

Proofs, circuits, polynomials, challenges, openings and schemes are sequences of parts, lists and
elements, and each of these layers gives its values back. A list has to have a length that its
64-bit prefix can hold, which every list in memory has; a point of the twisted curve has to lie in
the group.

* `Committed.codec_roundTrips`, `Opening.codec_roundTrips`, `BatchOpening.codec_roundTrips`,
  `Proof.codec_roundTrips` — proofs and their parts;
* `Gate.codec_roundTrips`, `Circuit.codec_roundTrips`, `Poly.codec_roundTrips`,
  `Challenges.codec_roundTrips`, `Scheme.codec_roundTrips` — the other objects;
* `Scheme.ofSecret_codec_roundTrips` — among them every scheme that is set up;
* `objects_faithful` — the encodings of all objects give them back and tell them apart.
-/

namespace PlonkKzg

open Codec Fields

theorem scalars_roundTrip {as : List Scalar} (h : as.length < UInt64.size) :
    (Encoded.codec Scalar).list.RoundTrips as :=
  list_roundTrips (fun a _ => a.codec_roundTrips) h

/-! ### Objects with elements of a group -/

section

variable {G : Type} [Encoded G]

theorem Committed.codec_roundTrips {α : Type} {c : Codec α} {p : Committed α}
    (h : ∀ a ∈ p.toList, c.RoundTrips a) : (Committed.codec c).RoundTrips p := by
  have hl := h p.wires.l (by simp [Committed.toList, Wires.toList])
  have hr := h p.wires.r (by simp [Committed.toList, Wires.toList])
  have ho := h p.wires.o (by simp [Committed.toList, Wires.toList])
  have hquotient := h p.quotient (by simp [Committed.toList])
  have haccumulator := h p.accumulator (by simp [Committed.toList])
  refine map_roundTrips (tuple_roundTrips ?_) rfl
  exact cons_roundTrips hl <| cons_roundTrips hr <| cons_roundTrips ho <|
    cons_roundTrips hquotient <| cons_roundTrips haccumulator (none_roundTrips ())

theorem Opening.codec_roundTrips {o : Opening G} (h : (Encoded.codec G).RoundTrips o.witness) :
    Opening.codec.RoundTrips o := by
  refine map_roundTrips (record_roundTrips (by simp) ?_) rfl
  exact cons_roundTrips o.point.codec_roundTrips <| cons_roundTrips o.value.codec_roundTrips <|
    cons_roundTrips h (none_roundTrips ())

theorem BatchOpening.codec_roundTrips {o : BatchOpening G} (hlen : o.values.length < UInt64.size)
    (h : (Encoded.codec G).RoundTrips o.witness) : BatchOpening.codec.RoundTrips o := by
  refine map_roundTrips (record_roundTrips (by simp) ?_) rfl
  exact cons_roundTrips o.point.codec_roundTrips <| cons_roundTrips (scalars_roundTrip hlen) <|
    cons_roundTrips h (none_roundTrips ())

/-- A proof reads back if its group elements do. -/
theorem Proof.codec_roundTrips {p : Proof G} (hlen : p.opening.values.length < UInt64.size)
    (hcommitments : ∀ P ∈ p.commitments.toList, (Encoded.codec G).RoundTrips P)
    (hopening : (Encoded.codec G).RoundTrips p.opening.witness)
    (hopeningNext : (Encoded.codec G).RoundTrips p.openingNext.witness) :
    Proof.codec.RoundTrips p := by
  refine map_roundTrips (record_roundTrips (by simp) ?_) rfl
  exact cons_roundTrips (Committed.codec_roundTrips hcommitments) <|
    cons_roundTrips (Committed.codec_roundTrips fun a _ => a.codec_roundTrips) <|
    cons_roundTrips p.zNext.codec_roundTrips <|
    cons_roundTrips (BatchOpening.codec_roundTrips hlen hopening) <|
    cons_roundTrips (Opening.codec_roundTrips hopeningNext) (none_roundTrips ())

/-- Parameters read back if their group elements do. -/
theorem Scheme.codec_roundTrips {H : Type} [Encoded H] {s : Scheme G H}
    (hlen₁ : s.g1.length < UInt64.size) (hlen₂ : s.g2.length < UInt64.size)
    (h₁ : ∀ P ∈ s.g1, (Encoded.codec G).RoundTrips P)
    (h₂ : ∀ Q ∈ s.g2, (Encoded.codec H).RoundTrips Q) : Scheme.codec.RoundTrips s := by
  refine map_roundTrips (record_roundTrips (by simp) ?_) rfl
  exact cons_roundTrips (list_roundTrips h₁ hlen₁) <|
    cons_roundTrips (list_roundTrips h₂ hlen₂) (none_roundTrips ())

end

/-! ### Schemes of a secret -/

/-- Every power of the secret stays in the subgroup. -/
theorem Scheme.inSubgroup_of_mem_powers (s : Scalar) {Q : G2} (hQ : G2.inSubgroup Q) (n : Nat) :
    ∀ R ∈ powers s Q n, G2.inSubgroup R := by
  induction n generalizing Q with
  | zero => simp [powers]
  | succ n ih =>
      intro R hR
      rcases List.mem_cons.1 hR with rfl | hR
      · exact hQ
      · exact ih (G2.inSubgroup_smul s hQ) R hR

/-- The points of a scheme that was made from a secret lie in the groups. -/
theorem Scheme.ofSecret_codec_roundTrips {d : Nat} (hd : d + 1 < UInt64.size) (s : Scalar) :
    Scheme.codec.RoundTrips (Scheme.ofSecret d s : Scheme G1 G2) := by
  refine Scheme.codec_roundTrips ?_ ?_ (fun P _ => G1.codec_roundTrips P) fun Q hQ => ?_
  · rwa [ofSecret, powers_length]
  · rw [ofSecret, powers_length]
    decide
  · exact G2.codec_roundTrips (inSubgroup_of_mem_powers s G2.inSubgroup_generator 2 Q hQ)

/-! ### Objects of scalars -/

theorem Gate.codec_roundTrips (g : Gate) : Gate.codec.RoundTrips g := by
  refine map_roundTrips (record_roundTrips (by simp) ?_) rfl
  exact cons_roundTrips (word_roundTrips g.wires.l) <| cons_roundTrips (word_roundTrips g.wires.r) <|
    cons_roundTrips (word_roundTrips g.wires.o) <|
    cons_roundTrips g.selectors.ql.codec_roundTrips <|
    cons_roundTrips g.selectors.qr.codec_roundTrips <|
    cons_roundTrips g.selectors.qm.codec_roundTrips <|
    cons_roundTrips g.selectors.qo.codec_roundTrips <|
    cons_roundTrips g.selectors.qk.codec_roundTrips (none_roundTrips ())

theorem Circuit.codec_roundTrips {c : Circuit} (hconstraints : c.constraints.length < UInt64.size)
    (hassertions : c.assertions.length < UInt64.size) : Circuit.codec.RoundTrips c := by
  refine map_roundTrips (record_roundTrips (by simp) ?_) rfl
  exact cons_roundTrips (list_roundTrips (fun g _ => g.codec_roundTrips) hconstraints) <|
    cons_roundTrips (list_roundTrips (fun g _ => g.codec_roundTrips) hassertions) <|
    cons_roundTrips (word_roundTrips c.varCount) (none_roundTrips ())

/-- Reading does not trim, so the stored coefficients come back, whatever they are. -/
theorem Poly.codec_roundTrips {p : Poly} (h : p.coefs.length < UInt64.size) :
    Poly.codec.RoundTrips p := by
  refine map_roundTrips (record_roundTrips (by simp) ?_) rfl
  exact cons_roundTrips (scalars_roundTrip h) (none_roundTrips ())

theorem Challenges.codec_roundTrips (cs : Challenges) : Challenges.codec.RoundTrips cs := by
  refine map_roundTrips (record_roundTrips (by simp) ?_) rfl
  exact cons_roundTrips cs.zeta.codec_roundTrips <| cons_roundTrips cs.bundle.codec_roundTrips <|
    cons_roundTrips cs.gamma.codec_roundTrips <|
    cons_roundTrips cs.alpha.codec_roundTrips (none_roundTrips ())

/-! ### All objects -/

/-- All encodings of objects give them back, and tell them apart. -/
theorem objects_faithful :
    (Proof.codec : Codec (Proof G1)).Faithful (fun p => p.opening.values.length < UInt64.size) ∧
    Circuit.codec.Faithful
      (fun c => c.constraints.length < UInt64.size ∧ c.assertions.length < UInt64.size) ∧
    Poly.codec.Faithful (fun p => p.coefs.length < UInt64.size) ∧
    Challenges.codec.Faithful (fun _ => True) ∧
    (Opening.codec : Codec (Opening G1)).Faithful (fun _ => True) ∧
    (BatchOpening.codec : Codec (BatchOpening G1)).Faithful
      (fun o => o.values.length < UInt64.size) ∧
    (Scheme.codec : Codec (Scheme G1 G2)).Faithful (fun s => s.g1.length < UInt64.size ∧
      s.g2.length < UInt64.size ∧ ∀ Q ∈ s.g2, G2.inSubgroup Q) := by
  refine ⟨?_, ?_, ?_, ?_, ?_, ?_, ?_⟩
  · exact faithful_of_roundTrips fun p hlen => Proof.codec_roundTrips hlen
      (fun P _ => G1.codec_roundTrips P) (G1.codec_roundTrips _) (G1.codec_roundTrips _)
  · exact faithful_of_roundTrips fun c h => Circuit.codec_roundTrips h.1 h.2
  · exact faithful_of_roundTrips fun p => Poly.codec_roundTrips
  · exact faithful_of_roundTrips fun cs _ => cs.codec_roundTrips
  · exact faithful_of_roundTrips fun o _ => Opening.codec_roundTrips (G1.codec_roundTrips _)
  · exact faithful_of_roundTrips fun o hlen =>
      BatchOpening.codec_roundTrips hlen (G1.codec_roundTrips _)
  · exact faithful_of_roundTrips fun s h => Scheme.codec_roundTrips h.1 h.2.1
      (fun P _ => G1.codec_roundTrips P) fun Q hQ => G2.codec_roundTrips (h.2.2 Q hQ)

end PlonkKzg
