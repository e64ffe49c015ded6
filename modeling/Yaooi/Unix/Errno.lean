import Yaooi.Queue.Basic

/-!
# Error numbers

`yoi_unix_conv_errno` of `src/unix/impl.c` turns the `errno` of a failed call into a code.  No code
of it is `YO_OK` (`yoiUnixConvErrno_ne_ok`), so a failure is always told from a success; but where
no call has failed `errno` may be 0, and of 0 it makes `YO_OK` (`yoiUnixConvErrnoOrZero`).
-/

namespace Yaooi

namespace YoCode

def eio : YoCode := -1
def eof : YoCode := -4
def ebusy : YoCode := -6
def eagain : YoCode := -7
def enotsup : YoCode := -8
def enoent : YoCode := -10
def enodev : YoCode := -11
def eexist : YoCode := -12
def enotdir : YoCode := -14
def enottty : YoCode := -16
def enotsock : YoCode := -17
def enotempty : YoCode := -18
def eisdir : YoCode := -19
def einval : YoCode := -20
def ebadop : YoCode := -22
def exdev : YoCode := -23
def erange : YoCode := -24
def efault : YoCode := -25
def ebadexe : YoCode := -26
def eutf : YoCode := -27
def ealready : YoCode := -28
def enoresource : YoCode := -30
def eloop : YoCode := -31
def efbig : YoCode := -32
def erofs : YoCode := -33
def eproto : YoCode := -100
def eremoteio : YoCode := -101
def eaddrinuse : YoCode := -103
def eaddrnotavail : YoCode := -104
def enetdown : YoCode := -105
def econnaborted : YoCode := -106
def econnreset : YoCode := -107
def econnrefused : YoCode := -108
def ehostdown : YoCode := -109
def enomedium : YoCode := -110
def eunknown : YoCode := -10000

end YoCode

/-- `errno` after a call has failed: a number that the table has, or another one. -/
inductive Errno where
  | eperm | enoent | esrch | eintr | eio | enxio | e2big | enoexec | ebadf | echild | eagain
  | enomem | eacces | efault | ebusy | eexist | exdev | enodev | enotdir | eisdir | einval
  | enfile | emfile | enotty | etxtbsy | efbig | enospc | espipe | erofs | emlink | epipe
  | erange | edeadlk | enametoolong | enolck | enosys | enotempty | eloop | eunatch | enodata
  | enonet | ecomm | eproto | eoverflow | enotuniq | elibbad | eilseq | enotsock | edestaddrreq
  | emsgsize | eprototype | enoprotoopt | eprotonosupport | esocktnosupport | enotsup
  | epfnosupport | eafnosupport | eaddrinuse | eaddrnotavail | enetdown | enetunreach
  | econnaborted | econnreset | enobufs | eisconn | enotconn | eshutdown | etimedout
  | econnrefused | ehostdown | ehostunreach | ealready | eremoteio | enomedium | ecanceled
  | other (n : ℕ)
  deriving DecidableEq, Repr

/-- `yoi_unix_conv_errno` -/
def yoiUnixConvErrno : Errno → YoCode
  | .eperm => .eperm
  | .enoent => .enoent
  | .esrch => .enoent
  | .eintr => .ecanceled
  | .eio => .eio
  | .enxio => .enoent
  | .e2big => .einval
  | .enoexec => .ebadexe
  | .ebadf => .ebadfd
  | .echild => .eunknown
  | .eagain => .eagain
  | .enomem => .enomem
  | .eacces => .eperm
  | .efault => .efault
  | .ebusy => .ebusy
  | .eexist => .eexist
  | .exdev => .exdev
  | .enodev => .enodev
  | .enotdir => .enotdir
  | .eisdir => .eisdir
  | .einval => .einval
  | .enfile => .enoresource
  | .emfile => .enoresource
  | .enotty => .enottty
  | .etxtbsy => .ebusy
  | .efbig => .efbig
  | .enospc => .enoresource
  | .espipe => .ebadop
  | .erofs => .erofs
  | .emlink => .enoresource
  | .epipe => .eof
  | .erange => .erange
  | .edeadlk => .ebusy
  | .enametoolong => .erange
  | .enolck => .enoresource
  | .enosys => .enoresource
  | .enotempty => .enotempty
  | .eloop => .eloop
  | .eunatch => .enoent
  | .enodata => .eof
  | .enonet => .enetdown
  | .ecomm => .eproto
  | .eproto => .eproto
  | .eoverflow => .erange
  | .enotuniq => .eexist
  | .elibbad => .ebadexe
  | .eilseq => .eutf
  | .enotsock => .enotsock
  | .edestaddrreq => .einval
  | .emsgsize => .erange
  | .eprototype => .einval
  | .enoprotoopt => .enotsup
  | .eprotonosupport => .enotsup
  | .esocktnosupport => .enotsup
  | .enotsup => .enotsup
  | .epfnosupport => .enotsup
  | .eafnosupport => .enotsup
  | .eaddrinuse => .eaddrinuse
  | .eaddrnotavail => .eaddrnotavail
  | .enetdown => .enetdown
  | .enetunreach => .enetdown
  | .econnaborted => .econnaborted
  | .econnreset => .econnreset
  | .enobufs => .erange
  | .eisconn => .ebadop
  | .enotconn => .ebadop
  | .eshutdown => .eof
  | .etimedout => .etimeout
  | .econnrefused => .econnrefused
  | .ehostdown => .ehostdown
  | .ehostunreach => .ehostdown
  | .ealready => .ealready
  | .eremoteio => .eremoteio
  | .enomedium => .enomedium
  | .ecanceled => .ecanceled
  | .other _ => .eunknown

/-- `yoi_unix_conv_errno` of an `errno` that no call has set, and that may be 0. -/
def yoiUnixConvErrnoOrZero : Option Errno → YoCode
  | none => .ok
  | some e => yoiUnixConvErrno e

/-- **A failed call is never reported as a success.** -/
theorem yoiUnixConvErrno_ne_ok (e : Errno) : yoiUnixConvErrno e ≠ .ok := by
  cases e with
  | other n => exact (by decide : YoCode.eunknown ≠ .ok)
  | _ => decide

end Yaooi
