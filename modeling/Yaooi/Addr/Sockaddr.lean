import Yaooi.Addr.Basic

/-!
# Socket addresses

`yoi_unix_conv_addr` and `yoi_unix_conv_sockaddr` of `src/unix/impl.c`, on a machine of either byte
order.  The port and the words of an IPv6 address lie in network order in the structures of the OS
and in the order of the machine in those of the library.

* `yoiUnixConvSockaddr_convAddr`: converting an address and a port there and back.
* `convAddr_networkOrder`: what lies in the structure.
* `yoiUnixConvAddr_convSockaddr`: converting a structure there and back.
* `sockaddr_roundtrip` puts them together.
-/

namespace Yaooi

open ByteOrder (Byte)

/-! ## The structures of the OS -/

/-- `struct sockaddr_in` -/
structure SockaddrIn where
  port : Fin 2 → Byte
  addr : Fin 4 → Byte
  zero : Fin 8 → Byte

/-- `struct sockaddr_in6` -/
structure SockaddrIn6 where
  port : Fin 2 → Byte
  flowinfo : Fin 4 → Byte
  addr : Fin 16 → Byte
  scopeId : Fin 4 → Byte

/-- `struct sockaddr_storage`, for the families `AF_INET` and `AF_INET6`. -/
inductive SockaddrStorage where
  | inet (s : SockaddrIn)
  | inet6 (s : SockaddrIn6)

namespace SockaddrStorage

/-- The bytes of the port. -/
def port : SockaddrStorage → Fin 2 → Byte
  | inet s => s.port
  | inet6 s => s.port

/-- Same family, port and address. -/
def Same : SockaddrStorage → SockaddrStorage → Prop
  | inet s, inet t => s.port = t.port ∧ s.addr = t.addr
  | inet6 s, inet6 t => s.port = t.port ∧ s.addr = t.addr
  | inet _, inet6 _ | inet6 _, inet _ => False

end SockaddrStorage

/-! ## The conversions -/

section

variable (o : ByteOrder)

/-- A 16-bit word, stored in network order. -/
def storeNetwork (w : BitVec 16) : Fin 2 → Byte := o.bytes (n := 1) fun _ => o.htons w

/-- A 16-bit word, read from network order. -/
def loadNetwork (b : Fin 2 → Byte) : BitVec 16 := o.htons (o.words (n := 1) b 0)

/-- `memcpy` to `v4` -/
def YoAddr.copyV4 (a : YoAddr) (v : Fin 4 → Byte) : YoAddr :=
  { a with bytes := fun k => if h : k.val < 4 then v ⟨k, h⟩ else a.bytes k }

/-- `yoi_unix_conv_addr`: the structure and its size.  The rest of a structure is what was on the
stack. -/
def yoiUnixConvAddr (addr : YoAddr) (port : BitVec 16) (sin : SockaddrIn) (sin6 : SockaddrIn6) :
    SockaddrStorage × ℕ :=
  match addr.type with
  | .ipv4 => (.inet { sin with port := storeNetwork o port, addr := addr.v4 }, 16)
  | .ipv6 =>
    (.inet6 { sin6 with
      port := storeNetwork o port, addr := o.bytes (n := 8) fun i => o.htons (addr.v6 o i) }, 28)

/-- `yoi_unix_conv_sockaddr`: the address and the port.  It writes to `*pres`, and no more of the
union than the address needs. -/
def yoiUnixConvSockaddr (sockaddr : SockaddrStorage) (pres : YoAddr) : YoAddr × BitVec 16 :=
  match sockaddr with
  | .inet sin => ({ pres with type := .ipv4 }.copyV4 sin.addr, loadNetwork o sin.port)
  | .inet6 sin6 =>
    let pres : YoAddr := ⟨.ipv6, sin6.addr⟩
    (.ofV6 o fun i => o.htons (pres.v6 o i), loadNetwork o sin6.port)

end

variable {o : ByteOrder} {a pres : YoAddr} {port : BitVec 16} {sin : SockaddrIn}
  {sin6 : SockaddrIn6} {s : SockaddrStorage}

/-! ## Ports -/

@[simp] theorem loadNetwork_storeNetwork (w : BitVec 16) :
    loadNetwork o (storeNetwork o w) = w := by
  rw [loadNetwork, storeNetwork, ByteOrder.words_bytes, ByteOrder.htons_htons]

@[simp] theorem storeNetwork_loadNetwork (b : Fin 2 → Byte) :
    storeNetwork o (loadNetwork o b) = b := by
  have hword : (fun _ : Fin 1 => o.words (n := 1) b 0) = o.words (n := 1) b :=
    funext fun i => by rw [Subsingleton.elim i 0]
  rw [storeNetwork, loadNetwork]
  simp only [ByteOrder.htons_htons, hword, ByteOrder.bytes_words]

/-- The high byte of a port comes first. -/
theorem storeNetwork_eq (w : BitVec 16) :
    storeNetwork o w 0 = ByteOrder.high w ∧ storeNetwork o w 1 = ByteOrder.low w := by
  constructor
  · exact (ByteOrder.bytes_even (n := 1) _ 0 (by omega)).trans (ByteOrder.byte0_htons w)
  · exact (ByteOrder.bytes_odd (n := 1) _ 0 (by omega)).trans (ByteOrder.byte1_htons w)

/-! ## Addresses -/

@[simp] theorem YoAddr.v4_copyV4 (v : Fin 4 → Byte) : (a.copyV4 v).v4 = v := by
  funext i
  simp [v4, copyV4]

@[simp] theorem YoAddr.type_copyV4 (v : Fin 4 → Byte) : (a.copyV4 v).type = a.type := rfl

/-- An address and a port come back. -/
theorem yoiUnixConvSockaddr_convAddr (o : ByteOrder) (a pres : YoAddr) (port : BitVec 16)
    (sin : SockaddrIn) (sin6 : SockaddrIn6) :
    (yoiUnixConvSockaddr o (yoiUnixConvAddr o a port sin sin6).1 pres).2 = port ∧
      yoAddrcmp a (yoiUnixConvSockaddr o (yoiUnixConvAddr o a port sin sin6).1 pres).1 = true := by
  cases ha : a.type with
  | ipv4 =>
    simp only [yoiUnixConvAddr, ha, yoiUnixConvSockaddr]
    exact ⟨loadNetwork_storeNetwork port, (yoAddrcmp_ipv4 ha rfl).mpr fun i => by simp⟩
  | ipv6 =>
    have hwords : (fun i => o.htons (YoAddr.v6 o
        ⟨.ipv6, o.bytes (n := 8) fun i => o.htons (a.v6 o i)⟩ i)) = a.v6 o := funext fun i => by
      simp [YoAddr.v6]
    simp only [yoiUnixConvAddr, ha, yoiUnixConvSockaddr]
    rw [hwords, YoAddr.ofV6_v6 ha]
    exact ⟨loadNetwork_storeNetwork port, yoAddrcmp_self a⟩

/-- What lies in the structure of an address and a port: their bytes in network order. -/
def NetworkOrder (o : ByteOrder) (a : YoAddr) (port : BitVec 16) (s : SockaddrStorage) : Prop :=
  s.port 0 = ByteOrder.high port ∧ s.port 1 = ByteOrder.low port ∧
    match s with
    | .inet sin => a.type = .ipv4 ∧ ∀ i, sin.addr i = a.v4 i
    | .inet6 sin6 => a.type = .ipv6 ∧ ∀ i : Fin 8,
        sin6.addr ⟨2 * i, by omega⟩ = ByteOrder.high (a.v6 o i) ∧
          sin6.addr ⟨2 * i + 1, by omega⟩ = ByteOrder.low (a.v6 o i)

theorem convAddr_networkOrder : NetworkOrder o a port (yoiUnixConvAddr o a port sin sin6).1 := by
  obtain ⟨hport0, hport1⟩ := storeNetwork_eq (o := o) port
  cases ha : a.type with
  | ipv4 =>
    simp only [yoiUnixConvAddr, ha, NetworkOrder]
    exact ⟨hport0, hport1, trivial, fun _ => trivial⟩
  | ipv6 =>
    simp only [yoiUnixConvAddr, ha, NetworkOrder]
    refine ⟨hport0, hport1, trivial, fun i => ?_⟩
    have heven := ByteOrder.bytes_even (o := o) (n := 8) (fun i => o.htons (a.v6 o i)) i (by omega)
    have hodd := ByteOrder.bytes_odd (o := o) (n := 8) (fun i => o.htons (a.v6 o i)) i (by omega)
    rw [ByteOrder.byte0_htons] at heven
    rw [ByteOrder.byte1_htons] at hodd
    exact ⟨heven, hodd⟩

/-- A structure comes back. -/
theorem yoiUnixConvAddr_convSockaddr :
    (yoiUnixConvAddr o (yoiUnixConvSockaddr o s pres).1 (yoiUnixConvSockaddr o s pres).2 sin
      sin6).1.Same s := by
  cases s with
  | inet s =>
    simp [yoiUnixConvAddr, yoiUnixConvSockaddr, SockaddrStorage.Same]
  | inet6 s =>
    have hbytes : (o.bytes (n := 8) fun i => o.htons (YoAddr.v6 o
        (.ofV6 o fun i => o.htons (YoAddr.v6 o ⟨.ipv6, s.addr⟩ i)) i)) = s.addr := by
      simp only [YoAddr.v6_ofV6, ByteOrder.htons_htons]
      exact ByteOrder.bytes_words (n := 8) s.addr
    simp only [yoiUnixConvAddr, yoiUnixConvSockaddr, YoAddr.ofV6, SockaddrStorage.Same]
    exact ⟨storeNetwork_loadNetwork _, hbytes⟩

/-- **Socket addresses.**  On a machine of either byte order, every address and port come back from
the structure they are converted to, in which they lie in network order; and every structure
comes back from its address and port, with the same family, port bytes and address bytes. -/
theorem sockaddr_roundtrip (o : ByteOrder) (sin : SockaddrIn) (sin6 : SockaddrIn6)
    (pres : YoAddr) :
    (∀ a port,
      (yoiUnixConvSockaddr o (yoiUnixConvAddr o a port sin sin6).1 pres).2 = port ∧
        yoAddrcmp a (yoiUnixConvSockaddr o (yoiUnixConvAddr o a port sin sin6).1 pres).1 = true ∧
          NetworkOrder o a port (yoiUnixConvAddr o a port sin sin6).1) ∧
      ∀ s, (yoiUnixConvAddr o (yoiUnixConvSockaddr o s pres).1 (yoiUnixConvSockaddr o s pres).2 sin
        sin6).1.Same s := by
  refine ⟨fun a port => ?_, fun s => yoiUnixConvAddr_convSockaddr⟩
  obtain ⟨hport, haddr⟩ := yoiUnixConvSockaddr_convAddr o a pres port sin sin6
  exact ⟨hport, haddr, convAddr_networkOrder⟩

end Yaooi
