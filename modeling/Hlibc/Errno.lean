import Mathlib.Data.Int.Notation

/-!
# Error numbers

The values of `errno.h` that the functions of the library return.
-/

set_option autoImplicit false

namespace Hlibc

def ENOMEM : ℤ := 12

def EBUSY : ℤ := 16

def EINVAL : ℤ := 22

end Hlibc
