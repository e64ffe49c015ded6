import Yaooi.Addr.Sockaddr
import Yaooi.Lib.Distinct

/-!
# Resolved addresses on the two systems

`yo_dns_getaddrinfo` of `src/unix/impl.c` and of `src/win/impl.c`, from the list that the OS
resolver returned: each socket address is converted and kept if it equals none kept before.  The
Windows version leaves the words of an IPv6 address in network order, and compares whole structures
where the Unix version calls `yo_addrcmp`.

* `sameAddresses_iff`: on a little-endian machine the results agree, whatever is on the stack,
  exactly when every word of an IPv6 address reads the same in both byte orders and no IPv4 address
  comes twice.
* `not_sameAddresses_loopback`: the two loopback addresses.
-/

namespace Yaooi

open ByteOrder (Byte)
open Distinct

/-! ## The functions -/

/-- `yoi_win_conv_sockaddr` -/
def yoiWinConvSockaddr (o : ByteOrder) (sockaddr : SockaddrStorage) (pres : YoAddr) :
    YoAddr × BitVec 16 :=
  match sockaddr with
  | .inet sin => ({ pres with type := .ipv4 }.copyV4 sin.addr, loadNetwork o sin.port)
  | .inet6 sin6 => (⟨.ipv6, sin6.addr⟩, loadNetwork o sin6.port)

/-- `!memcmp` of two whole structures. -/
def addrMemcmp (a b : YoAddr) : Bool := a.type = b.type ∧ ∀ k, a.bytes k = b.bytes k

/-- `yo_dns_getaddrinfo` of the Unix backend, from the OS's list.  In each round `addr` holds what
is on the stack before it is written. -/
def unixAddresses (o : ByteOrder) (list : List SockaddrStorage) (stack : ℕ → YoAddr) :
    List YoAddr :=
  collect yoAddrcmp [] (list.zipIdx.map fun it => (yoiUnixConvSockaddr o it.1 (stack it.2)).1)

/-- `yo_dns_getaddrinfo` of the Windows backend, from the OS's list. -/
def winAddresses (o : ByteOrder) (list : List SockaddrStorage) (stack : ℕ → YoAddr) :
    List YoAddr :=
  collect addrMemcmp [] (list.zipIdx.map fun it => (yoiWinConvSockaddr o it.1 (stack it.2)).1)

/-- On a little-endian machine the two backends give the same sequence of addresses, whatever the
uninitialised parts hold. -/
def SameAddresses (list : List SockaddrStorage) : Prop :=
  ∀ winStack unixStack : ℕ → YoAddr,
    List.Forall₂ (fun a b => yoAddrcmp a b = true) (winAddresses .little list winStack)
      (unixAddresses .little list unixStack)

/-- Where the two bytes of a word of an IPv6 address are. -/
theorem even_lt (i : Fin 8) : 2 * i.val < 16 := by omega

@[inherit_doc even_lt]
theorem odd_lt (i : Fin 8) : 2 * i.val + 1 < 16 := by omega

namespace SockaddrStorage

/-- The address of an IPv4 socket address. -/
def v4 : SockaddrStorage → Option (Fin 4 → Byte)
  | inet s => some s.addr
  | inet6 _ => none

/-- Every word of an IPv6 address reads the same in both byte orders. -/
def Palindromic : SockaddrStorage → Prop
  | inet _ => True
  | inet6 s => ∀ i : Fin 8, s.addr ⟨2 * i, even_lt i⟩ = s.addr ⟨2 * i + 1, odd_lt i⟩

end SockaddrStorage

variable {s t : SockaddrStorage} {sin6 : SockaddrIn6} {a b pres pres' : YoAddr}
  {list : List SockaddrStorage}

/-! ## One address -/

theorem addrMemcmp_iff : addrMemcmp a b = true ↔ a = b := by
  obtain ⟨ta, ba⟩ := a
  obtain ⟨tb, bb⟩ := b
  simp [addrMemcmp, funext_iff]

theorem addrMemcmp_self (a : YoAddr) : addrMemcmp a a = true := addrMemcmp_iff.mpr rfl

/-- The Unix conversion swaps the bytes of each word on a little-endian machine. -/
theorem bytes_unixConv (pres : YoAddr) (i : Fin 8) :
    (yoiUnixConvSockaddr .little (.inet6 sin6) pres).1.bytes ⟨2 * i, even_lt i⟩ =
        sin6.addr ⟨2 * i + 1, odd_lt i⟩ ∧
      (yoiUnixConvSockaddr .little (.inet6 sin6) pres).1.bytes ⟨2 * i + 1, odd_lt i⟩ =
        sin6.addr ⟨2 * i, even_lt i⟩ := by
  have heven := ByteOrder.bytes_even (o := .little) (n := 8)
    (fun i => ByteOrder.little.htons (ByteOrder.little.words (n := 8) sin6.addr i)) i (by omega)
  have hodd := ByteOrder.bytes_odd (o := .little) (n := 8)
    (fun i => ByteOrder.little.htons (ByteOrder.little.words (n := 8) sin6.addr i)) i (by omega)
  rw [ByteOrder.byte0_htons, ByteOrder.words, ByteOrder.load, ByteOrder.high_append] at heven
  rw [ByteOrder.byte1_htons, ByteOrder.words, ByteOrder.load, ByteOrder.low_append] at hodd
  exact ⟨heven, hodd⟩

/-- The two conversions of a socket address agree when swapping changes nothing. -/
theorem yoAddrcmp_conv_iff :
    yoAddrcmp (yoiWinConvSockaddr .little s pres).1 (yoiUnixConvSockaddr .little s pres').1 = true ↔
      s.Palindromic := by
  cases s with
  | inet sin =>
    simp only [SockaddrStorage.Palindromic, iff_true]
    exact (yoAddrcmp_ipv4 rfl rfl).mpr fun i => by simp [yoiWinConvSockaddr, yoiUnixConvSockaddr]
  | inet6 sin6 =>
    rw [yoAddrcmp_ipv6 rfl rfl]
    constructor
    · intro h i
      rw [← (bytes_unixConv pres' i).2, ← h]
      rfl
    · intro h
      refine ByteOrder.bytes_ext (n := 8) (fun i => ?_) fun i => ?_
      · rw [(bytes_unixConv _ i).1]
        exact h i
      · rw [(bytes_unixConv _ i).2]
        exact (h i).symm

/-- Each conversion tells IPv6 addresses apart. -/
theorem unixConv_inet6_inj {sin6' : SockaddrIn6} :
    (yoiUnixConvSockaddr .little (.inet6 sin6) pres).1.bytes =
      (yoiUnixConvSockaddr .little (.inet6 sin6') pres').1.bytes ↔ sin6.addr = sin6'.addr := by
  constructor
  · intro h
    refine ByteOrder.bytes_ext (n := 8) (fun i => ?_) fun i => ?_
    · rw [← (bytes_unixConv pres i).2, h, (bytes_unixConv _ i).2]
    · rw [← (bytes_unixConv pres i).1, h, (bytes_unixConv _ i).1]
  · intro h
    simp only [yoiUnixConvSockaddr, h]

/-! ## Comparing two addresses -/

/-- Two IPv4 addresses that agree. -/
def SameV4 (s t : SockaddrStorage) : Prop := ∃ v, s.v4 = some v ∧ t.v4 = some v

/-- The two comparisons agree, where it makes no difference what was on the stack. -/
theorem compare_agree {win win' unix unix' : YoAddr} (h : win = win' ∨ ¬ SameV4 s t) :
    addrMemcmp (yoiWinConvSockaddr .little s win).1 (yoiWinConvSockaddr .little t win').1 =
      yoAddrcmp (yoiUnixConvSockaddr .little s unix).1 (yoiUnixConvSockaddr .little t unix').1 := by
  rw [Bool.eq_iff_iff, addrMemcmp_iff]
  cases s with
  | inet sin =>
    cases t with
    | inet sin' =>
      rw [yoAddrcmp_ipv4 rfl rfl]
      simp only [yoiWinConvSockaddr, yoiUnixConvSockaddr, YoAddr.v4_copyV4]
      constructor
      · intro heq i
        have hv4 := congrArg YoAddr.v4 heq
        rw [YoAddr.v4_copyV4, YoAddr.v4_copyV4] at hv4
        rw [hv4]
      · intro heq
        have haddr : sin.addr = sin'.addr := funext heq
        rcases h with rfl | h
        · rw [haddr]
        · exact absurd ⟨sin.addr, rfl, congrArg some haddr.symm⟩ h
    | inet6 sin6' =>
      constructor
      · intro heq
        cases congrArg YoAddr.type heq
      · intro heq
        cases type_eq_of_yoAddrcmp heq
  | inet6 sin6 =>
    cases t with
    | inet sin' =>
      constructor
      · intro heq
        cases congrArg YoAddr.type heq
      · intro heq
        cases type_eq_of_yoAddrcmp heq
    | inet6 sin6' =>
      rw [yoAddrcmp_ipv6 rfl rfl, unixConv_inet6_inj]
      simp [yoiWinConvSockaddr]

/-! ## Comparing two lists -/

/-- The entries that are kept are the same ones, where the comparisons agree. -/
theorem exists_kept (list : List SockaddrStorage) (winStack unixStack : ℕ → YoAddr)
    (h : list.zipIdx.Pairwise fun it jt => winStack jt.2 = winStack it.2 ∨ ¬ SameV4 jt.1 it.1) :
    ∃ kept : List (SockaddrStorage × ℕ), winAddresses .little list winStack =
        kept.map (fun it => (yoiWinConvSockaddr .little it.1 (winStack it.2)).1) ∧
      unixAddresses .little list unixStack =
        kept.map (fun it => (yoiUnixConvSockaddr .little it.1 (unixStack it.2)).1) ∧
      (∀ it ∈ kept, it.1 ∈ list) ∧
        ∀ it ∈ list.zipIdx, ∃ jt ∈ kept,
          (yoiWinConvSockaddr .little it.1 (winStack it.2)).1 =
            (yoiWinConvSockaddr .little jt.1 (winStack jt.2)).1 := by
  set win := fun it : SockaddrStorage × ℕ => (yoiWinConvSockaddr .little it.1 (winStack it.2)).1
  set unix := fun it : SockaddrStorage × ℕ => (yoiUnixConvSockaddr .little it.1 (unixStack it.2)).1
  have hwin := collect_map addrMemcmp [] list.zipIdx win
  have hunix := collect_map yoAddrcmp [] list.zipIdx unix
  have hsame : collect (fun it jt => addrMemcmp (win it) (win jt)) [] list.zipIdx =
      collect (fun it jt => yoAddrcmp (unix it) (unix jt)) [] list.zipIdx :=
    collect_congr (h.imp fun hor => compare_agree hor)
  refine ⟨_, hwin, by rw [hsame]; exact hunix, fun it hit => ?_, fun it hit => ?_⟩
  · rcases mem_of_mem_collect hit with hnil | hit
    · cases hnil
    · exact List.fst_mem_of_mem_zipIdx hit
  · obtain ⟨jt, hjt, heq⟩ := exists_mem_collect
      (fun it jt => addrMemcmp (win it) (win jt)) [] (fun x => addrMemcmp_self (win x)) hit
    exact ⟨jt, hjt, addrMemcmp_iff.mp heq⟩

/-- Two things to find on the stack. -/
def zeros : YoAddr := ⟨.ipv4, fun _ => 0⟩
@[inherit_doc zeros] def ones : YoAddr := ⟨.ipv4, fun _ => 1⟩

/-- The unused bytes of an IPv4 address tell the two apart. -/
theorem conv_zeros_ne_ones {sin : SockaddrIn} :
    (yoiWinConvSockaddr .little s zeros).1 ≠ (yoiWinConvSockaddr .little (.inet sin) ones).1 := by
  intro heq
  cases s with
  | inet sin' =>
    have hlast : (0 : Byte) = 1 := congrFun (congrArg YoAddr.bytes heq) 15
    cases hlast
  | inet6 sin6 => cases congrArg YoAddr.type heq

/-- The stack makes a difference to one conversion only, where it differs for that one only. -/
theorem winAddresses_update (l m : List SockaddrStorage) (stack : ℕ → YoAddr) (x : YoAddr) :
    winAddresses .little (l ++ t :: m) (Function.update stack l.length x) =
      collect addrMemcmp []
        ((l.zipIdx.map fun it => (yoiWinConvSockaddr .little it.1 (stack it.2)).1) ++
          (yoiWinConvSockaddr .little t x).1 ::
            (m.zipIdx (l.length + 1)).map fun it =>
              (yoiWinConvSockaddr .little it.1 (stack it.2)).1) := by
  have conv : ∀ its : List (SockaddrStorage × ℕ), (∀ it ∈ its, it.2 ≠ l.length) →
      (its.map fun it =>
        (yoiWinConvSockaddr .little it.1 (Function.update stack l.length x it.2)).1) =
          its.map fun it => (yoiWinConvSockaddr .little it.1 (stack it.2)).1 := fun its hits =>
    List.map_congr_left fun it hit => by rw [Function.update_of_ne (hits it hit)]
  have hl := conv l.zipIdx fun it hit => Nat.ne_of_lt (List.mem_zipIdx' hit).1
  have hm := conv (m.zipIdx (l.length + 1)) fun it hit => by
    have hlt := (List.mem_zipIdx hit).1
    omega
  rw [winAddresses, List.zipIdx_append, List.zipIdx_cons, List.map_append, List.map_cons,
    Nat.zero_add, Function.update_self, hl, hm]

/-- An IPv4 address that comes again is kept again if the stack has changed. -/
theorem length_winAddresses {l m : List SockaddrStorage} (hs : s ∈ l) (hst : SameV4 s t) :
    (winAddresses .little (l ++ t :: m) (Function.update (fun _ => zeros) l.length ones)).length =
      (winAddresses .little (l ++ t :: m) fun _ => zeros).length + 1 := by
  obtain ⟨v, hsv, htv⟩ := hst
  obtain ⟨sin, rfl⟩ : ∃ sin, s = .inet sin := by cases s <;> simp_all [SockaddrStorage.v4]
  obtain ⟨sin', rfl⟩ : ∃ sin, t = .inet sin := by cases t <;> simp_all [SockaddrStorage.v4]
  have haddr : sin.addr = sin'.addr := by
    rw [Option.some.inj hsv, Option.some.inj htv]
  have hzeros : (yoiWinConvSockaddr .little (.inet sin') zeros).1 =
      (yoiWinConvSockaddr .little (.inet sin) zeros).1 := by
    simp only [yoiWinConvSockaddr, haddr]
  have hplain := winAddresses_update (t := .inet sin') l m (fun _ => zeros) zeros
  rw [Function.update_eq_self l.length fun _ : ℕ => zeros] at hplain
  rw [hplain, winAddresses_update]
  refine length_collect_replace ?_ (fun z hz => ?_) fun z hz => ?_
  · obtain ⟨i, hi⟩ := List.getElem?_of_mem hs
    have hmem : (.inet sin, i) ∈ l.zipIdx := List.mem_zipIdx_iff_getElem?.mpr hi
    obtain ⟨y, hy, heq⟩ := exists_mem_collect addrMemcmp [] addrMemcmp_self
      (List.mem_map_of_mem (f := fun it => (yoiWinConvSockaddr .little it.1 zeros).1) hmem)
    exact List.any_eq_true.mpr ⟨y, hy, hzeros ▸ heq⟩
  · obtain ⟨it, -, rfl⟩ := List.mem_map.mp hz
    exact Bool.eq_false_iff.mpr fun heq => conv_zeros_ne_ones (addrMemcmp_iff.mp heq).symm
  · obtain ⟨it, -, rfl⟩ := List.mem_map.mp hz
    exact Bool.eq_false_iff.mpr fun heq => conv_zeros_ne_ones (addrMemcmp_iff.mp heq)

/-- No IPv4 address comes twice. -/
theorem nodup_v4_iff : (list.filterMap SockaddrStorage.v4).Nodup ↔
    list.Pairwise fun s t => ¬ SameV4 s t := by
  rw [List.Nodup, List.pairwise_filterMap]
  refine List.Pairwise.iff fun s t => ?_
  constructor
  · rintro h ⟨v, hs, ht⟩
    exact h v hs v ht rfl
  · rintro h v hs w ht rfl
    exact h ⟨v, hs, ht⟩

/-- **When the two backends agree.**  On a little-endian machine the Windows backend gives the same
sequence of addresses as the Unix backend, whatever the uninitialised parts hold, if and only if
every word of every IPv6 address has two equal bytes and no IPv4 address comes twice. -/
theorem sameAddresses_iff (list : List SockaddrStorage) :
    SameAddresses list ↔
      (∀ s ∈ list, s.Palindromic) ∧ (list.filterMap SockaddrStorage.v4).Nodup := by
  rw [nodup_v4_iff]
  constructor
  · intro h
    constructor
    · intro s hs
      obtain ⟨kept, hwin, hunix, -, hall⟩ := exists_kept list (fun _ => zeros)
        (fun _ => zeros) (List.pairwise_of_forall fun _ _ => .inl rfl)
      have hkept := h (fun _ => zeros) fun _ => zeros
      rw [hwin, hunix, List.forall₂_map_left_iff, List.forall₂_map_right_iff,
        List.forall₂_same] at hkept
      obtain ⟨i, hi⟩ := List.getElem?_of_mem hs
      obtain ⟨jt, hjt, heq⟩ := hall (s, i) (List.mem_zipIdx_iff_getElem?.mpr hi)
      have hpal := yoAddrcmp_conv_iff.mp (hkept jt hjt)
      cases s with
      | inet => trivial
      | inet6 sin6 =>
        obtain ⟨t, j⟩ := jt
        cases t with
        | inet => cases congrArg YoAddr.type heq
        | inet6 sin6' =>
          have haddr : sin6.addr = sin6'.addr := congrArg YoAddr.bytes heq
          simpa only [SockaddrStorage.Palindromic, haddr] using hpal
    · refine List.pairwise_of_forall_sublist fun {s t} hsub hst => ?_
      obtain ⟨l, r, rfl, hs, hr⟩ := List.cons_sublist_iff.mp hsub
      obtain ⟨r₁, m, rfl⟩ := List.append_of_mem (List.singleton_sublist.mp hr)
      have hchanged := length_winAddresses (m := m) (List.mem_append_left r₁ hs) hst
      rw [List.append_assoc] at hchanged
      have hlen := fun stack => (h stack fun _ => zeros).length_eq
      rw [hlen, hlen] at hchanged
      omega
  · rintro ⟨hpal, hdistinct⟩ winStack unixStack
    have hpairs : list.zipIdx.Pairwise fun it jt =>
        winStack jt.2 = winStack it.2 ∨ ¬ SameV4 jt.1 it.1 := by
      have hfst : list = list.zipIdx.map Prod.fst := (List.zipIdx_map_fst 0 list).symm
      rw [hfst, List.pairwise_map] at hdistinct
      refine hdistinct.imp fun hne => .inr ?_
      rintro ⟨v, ht, hs⟩
      exact hne ⟨v, hs, ht⟩
    obtain ⟨kept, hwin, hunix, hmem, -⟩ := exists_kept _ _ unixStack hpairs
    rw [hwin, hunix, List.forall₂_map_left_iff, List.forall₂_map_right_iff, List.forall₂_same]
    exact fun it hit => yoAddrcmp_conv_iff.mpr (hpal it.1 (hmem it hit))

/-! ## Loopback -/

/-- The IPv6 loopback address `::1`. -/
def loopback6 : SockaddrStorage :=
  .inet6 ⟨fun _ => 0, fun _ => 0, fun k => if k = 15 then 1 else 0, fun _ => 0⟩

/-- The IPv4 loopback address `127.0.0.1`. -/
def loopback4 : SockaddrStorage :=
  .inet ⟨fun _ => 0, fun i => if i.val = 0 then 127 else if i.val = 3 then 1 else 0, fun _ => 0⟩

/-- The Windows backend turns `::1` into `::100`, and returns `127.0.0.1` twice. -/
theorem not_sameAddresses_loopback :
    ¬ SameAddresses [loopback6] ∧ ¬ SameAddresses [loopback4, loopback4] := by
  constructor
  · intro h
    have hcmp : List.Forall₂ (fun a b => yoAddrcmp a b = true)
        [(yoiWinConvSockaddr .little loopback6 zeros).1]
        [(yoiUnixConvSockaddr .little loopback6 zeros).1] := h (fun _ => zeros) fun _ => zeros
    exact absurd (List.forall₂_cons.mp hcmp).1 (by decide)
  · intro h
    have hlen := (h (Function.update (fun _ => zeros) 1 ones) fun _ => zeros).length_eq
    exact absurd hlen (by decide)

end Yaooi
