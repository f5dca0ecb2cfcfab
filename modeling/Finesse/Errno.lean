import Mathlib

/-!
# Error numbers

The values of `errno.h` that the modelled functions return.
-/

namespace Finesse

def ENOENT : Int := 2
def EBADF : Int := 9
def ENOMEM : Int := 12
def EEXIST : Int := 17
def ENOTDIR : Int := 20
def EISDIR : Int := 21
def EINVAL : Int := 22
def ENOSPC : Int := 28
def ENOTEMPTY : Int := 39
def ENODATA : Int := 61
def EOVERFLOW : Int := 75
def ENOTSUP : Int := 95
def ENOTCONN : Int := 107

end Finesse
