import PlonkKzg.Bytes
import PlonkKzg.Capacity
import PlonkKzg.Circuit.Basic
import PlonkKzg.Circuit.Permutation
import PlonkKzg.Circuit.Wires
import PlonkKzg.Commitment.Opening
import PlonkKzg.Commitment.Scheme
import PlonkKzg.Curve.Compressed
import PlonkKzg.Curve.G1
import PlonkKzg.Curve.G2
import PlonkKzg.Curve.Multiple
import PlonkKzg.Curve.Point
import PlonkKzg.Domain.Basic
import PlonkKzg.Domain.BitReversal
import PlonkKzg.Domain.Interpolation
import PlonkKzg.Domain.PowerOfTwo
import PlonkKzg.Domain.Transform
import PlonkKzg.Error
import PlonkKzg.Field.Fq
import PlonkKzg.Field.Fq12
import PlonkKzg.Field.Fq2
import PlonkKzg.Field.Power
import PlonkKzg.Field.Residue
import PlonkKzg.Field.Scalar
import PlonkKzg.Pairing.Ate
import PlonkKzg.Pairing.Groups
import PlonkKzg.Pairing.Target
import PlonkKzg.Poly.Basic
import PlonkKzg.Prover.Accumulator
import PlonkKzg.Prover.Challenges
import PlonkKzg.Prover.Preprocessed
import PlonkKzg.Prover.Proof
import PlonkKzg.Prover.Quotient
import PlonkKzg.Random.ChaCha
import PlonkKzg.Random.Sample
import PlonkKzg.Text.Base64
import PlonkKzg.Text.Numeral
import PlonkKzg.Text.Shortest
import PlonkKzg.Transcript.Basic
import PlonkKzg.Transcript.Duplex
import PlonkKzg.Transcript.Keccak
import PlonkKzg.Wire.Codec
import PlonkKzg.Wire.Element
import PlonkKzg.Wire.Json
import PlonkKzg.Proofs.Prover.CopyConstraints
import PlonkKzg.Proofs.Prover.Identity
import PlonkKzg.Proofs.Prover.RowEquations
import PlonkKzg.Proofs.Commitment.Exponents
import PlonkKzg.Proofs.Commitment.Acceptance
import PlonkKzg.Proofs.Prover.Openings
import PlonkKzg.Proofs.Prover.Replay
import PlonkKzg.Proofs.Domain.Decimation
import PlonkKzg.Proofs.Domain.RoundTrip
import PlonkKzg.Proofs.Prover.PublicData
import PlonkKzg.Proofs.Prover.Refusal
import PlonkKzg.Proofs.Circuit.Cycles
import PlonkKzg.Proofs.Circuit.Renaming
import PlonkKzg.Proofs.Prover.Renaming
import PlonkKzg.Proofs.Circuit.Building
import PlonkKzg.Proofs.Field.BaseField
import PlonkKzg.Proofs.Curve.Compressed
import PlonkKzg.Proofs.Prover.Dialogue
import PlonkKzg.Proofs.Prover.Binding
import PlonkKzg.Proofs.Poly.Trimmed
import PlonkKzg.Proofs.Domain.Lagrange
import PlonkKzg.Proofs.Prover.Division
import PlonkKzg.Proofs.Curve.Twist
import PlonkKzg.Proofs.Text.Base64
import PlonkKzg.Proofs.Wire.Codec
import PlonkKzg.Proofs.Curve.GroupLaw
import PlonkKzg.Proofs.Curve.Order
import PlonkKzg.Proofs.Wire.Element
import PlonkKzg.Proofs.Wire.Objects
import PlonkKzg.Proofs.Curve.Subgroup
import PlonkKzg.Proofs.Domain.Tower
import PlonkKzg.Proofs.Domain.Rotation
import PlonkKzg.Proofs.Prover.Labels
import PlonkKzg.Proofs.Prover.PrefixProducts
import PlonkKzg.Proofs.Commitment.Homomorphism
import PlonkKzg.Proofs.Commitment.Verification
import PlonkKzg.Proofs.Field.Tower
import PlonkKzg.Proofs.Field.Frobenius
import PlonkKzg.Proofs.Field.Encoding
import PlonkKzg.Proofs.Field.Norm
import PlonkKzg.Proofs.Pairing.Ate
import PlonkKzg.Proofs.Pairing.Target
import PlonkKzg.Proofs.Curve.Canonical
import PlonkKzg.Proofs.Curve.Membership
import PlonkKzg.Proofs.Poly.Canonical
import PlonkKzg.Proofs.Wire.Wrappers
import PlonkKzg.Proofs.Poly.Division
import PlonkKzg.Proofs.Poly.HighZeros
import PlonkKzg.Proofs.Commitment.HighZeros
import PlonkKzg.Proofs.Field.InPlace
import PlonkKzg.Proofs.Domain.OddCosets
import PlonkKzg.Proofs.Domain.Mirror
import PlonkKzg.Proofs.Circuit.Chains
import PlonkKzg.Proofs.Domain.Stages
import PlonkKzg.Proofs.Transcript.Operations
import PlonkKzg.Proofs.Prover.Zeros
import PlonkKzg.Proofs.Pairing.Members
import PlonkKzg.Proofs.Commitment.Members
