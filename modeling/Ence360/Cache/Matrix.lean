import Ence360.Semantics.CountedLoop
import Ence360.Semantics.TracedArray
import Mathlib.Algebra.Ring.Defs

/-!
# Square matrices in flat arrays (`lab5Cache/matrix.c`, `lab5Cache/matrixMul.c`)

The entries are taken from any ring in place of `double`. Arrays that exist have
less than `2 ^ 64` entries, so the `size_t` indices inside them do not wrap. The
result array does not overlap the inputs.
-/

set_option autoImplicit false

namespace Ence360.Cache.Matrix

open Semantics

variable {R : Type}

def matrixTranspose (res : TracedArray R) (a : List R) (n : ℕ) : Option (TracedArray R) :=
  countedLoop (fun i res =>
    countedLoop (fun j res => do
      let entry ← a[j * n + i]?
      res.write (i * n + j) entry) n res) n res

/-- Naive matrix multiplication. -/
def matrixMulBasic [CommRing R] (res : TracedArray R) (a b : List R) (n : ℕ) :
    Option (TracedArray R) :=
  countedLoop (fun i res =>
    countedLoop (fun j res => do
      let r ← countedLoop (fun k r => do
        let left ← a[i * n + k]?
        let right ← b[k * n + j]?
        return r + left * right) n 0
      res.write (i * n + j) r) n res) n res

end Ence360.Cache.Matrix
