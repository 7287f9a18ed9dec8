import DecisionDiagram.Store.Basic

/-!
# Sizes of a manager

Slots, buckets and caches are sized by powers of two. A size that is not given follows from the
number of slots. Sizes are checked once, in a fixed order, when a manager is created.
-/

set_option autoImplicit false

namespace DecisionDiagram

structure Config where
  storageBits : Nat
  bucketBits : Nat
  cacheBits : Nat
deriving DecidableEq

namespace Config

def ofStorageBits (bits : Nat) : Config := ⟨bits, min bits 20, min bits 16⟩

instance : Inhabited Config := ⟨ofStorageBits 20⟩

def withStorageBits (config : Config) (bits : Nat) : Config := { config with storageBits := bits }

def withBucketBits (config : Config) (bits : Nat) : Config := { config with bucketBits := bits }

def withCacheBits (config : Config) (bits : Nat) : Config := { config with cacheBits := bits }

def validate (config : Config) : Except Fault Unit := do
  if Store.maxBits < config.storageBits then throw .storageBitsTooLarge
  if config.storageBits < 1 then throw .storageTooSmall
  if Store.maxBits < config.bucketBits then throw .bucketBitsTooLarge
  if Store.maxBits < config.cacheBits then throw .cacheBitsTooLarge

def text (config : Config) : String :=
  "BddConfig \x7b storage_bits: " ++ toString config.storageBits ++ ", buckets_bits: " ++
    toString config.bucketBits ++ ", cache_bits: " ++ toString config.cacheBits ++ " \x7d"

end Config

end DecisionDiagram
