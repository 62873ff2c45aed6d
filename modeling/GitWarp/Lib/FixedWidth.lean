import Mathlib.Algebra.GroupWithZero.Nat

/-!
# Widths of bytes and code units

Numerals of a bounded type need its width to be positive. The two widths in use are
positive by the instances below, whichever other instances are in scope.
-/
namespace Lib

instance byteWidth : NeZero 256 := ⟨by decide⟩

instance codeUnitWidth : NeZero 65536 := ⟨by decide⟩

end Lib
