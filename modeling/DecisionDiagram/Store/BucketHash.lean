/-!
# Hashes for buckets

A store sorts its values into buckets by a hash. What counts as equal may be coarser than equality,
but equal values must have equal hashes.
-/

set_option autoImplicit false

namespace DecisionDiagram

class BucketHash (Value : Type) where
  bucketHash : Value → UInt64

export BucketHash (bucketHash)

class LawfulBucketHash (Value : Type) [BEq Value] [BucketHash Value] : Prop where
  bucketHash_eq : ∀ {first second : Value}, first == second → bucketHash first = bucketHash second

instance {Value : Type} [BEq Value] [LawfulBEq Value] [BucketHash Value] : LawfulBucketHash Value :=
  ⟨fun same => congrArg bucketHash (eq_of_beq same)⟩

end DecisionDiagram
