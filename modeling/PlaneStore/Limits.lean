/-!
# Limits

The configured bounds of a store. Each is checked before anything is changed.
-/

namespace PlaneStore

structure Limits where
  /-- Largest number of elements of one container; the entries of a mapping count once. -/
  containerSize : Nat := 65536
  /-- Largest number of live containers. -/
  containers : Nat := 1048576
  /-- Largest nesting depth of atomic regions. -/
  planes : Nat := 128
  /-- Buckets of a new mapping overlay, before rounding up to a power of two. -/
  overlayBuckets : Nat := 16
  deriving DecidableEq, Repr, Inhabited

end PlaneStore
