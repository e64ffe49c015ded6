import Yaooi.Addr.Resolve

/-!
# The array of resolved addresses

`yo_dns_getaddrinfo` of `src/unix/impl.c` counts the addresses that the OS resolver returned, makes
an array for all of them, and fills it in one pass, looking each address up in the part it has
filled.  The rest of the array stays what the allocator left there.

* `addrs_yoDnsGetaddrinfo`: the filled part is `unixAddresses` of the list.
* `yoDnsGetaddrinfo_spec`: so it has no two equal addresses, has every address of the list and no
  other, in the order of first occurrence, and nothing is written outside of the array.
-/

namespace Yaooi

open Distinct

/-! ## The function -/

/-- What the loop of `yo_dns_getaddrinfo` changes: the elements of `res->addr`, the places it has
written to, and `i`. -/
structure AddrFill where
  addr : ℕ → YoAddr
  writes : List ℕ
  i : ℕ

/-- `yo_addrinfo_t`, with the number of elements it was allocated for, and the places written to. -/
structure YoAddrinfo where
  alloc : ℕ
  addr : ℕ → YoAddr
  n : ℕ
  writes : List ℕ

/-- The loop that counts the list. -/
def addrCount (n : ℕ) : List SockaddrStorage → ℕ
  | [] => n
  | _ :: it => addrCount (n + 1) it

/-- The inner loop, from `j` on. -/
def addrFound (addr : YoAddr) (res : ℕ → YoAddr) (i j : ℕ) : Bool :=
  if j < i then
    if yoAddrcmp addr (res j) then true else addrFound addr res i (j + 1)
  else false
termination_by i - j

/-- The body of the outer loop, at an address that was already converted. -/
def addrKeep (s : AddrFill) (addr : YoAddr) : AddrFill :=
  if addrFound addr s.addr s.i 0 then s
  else ⟨Function.update s.addr s.i addr, s.writes ++ [s.i], s.i + 1⟩

/-- `yo_dns_getaddrinfo` of the Unix backend, from the OS's list.  In each round `addr` holds what
is on the stack before it is written, and `heap` is what the allocator left in the array. -/
def yoDnsGetaddrinfo (o : ByteOrder) (list : List SockaddrStorage) (stack heap : ℕ → YoAddr) :
    YoAddrinfo :=
  let n := addrCount 0 list
  let res := (list.zipIdx.map fun it => (yoiUnixConvSockaddr o it.1 (stack it.2)).1).foldl addrKeep
    ⟨heap, [], 0⟩
  ⟨n, res.addr, res.i, res.writes⟩

/-- The address is that of the socket address. -/
def IsAddrOf (o : ByteOrder) (s : SockaddrStorage) (a : YoAddr) : Prop :=
  ∀ pres, yoAddrcmp (yoiUnixConvSockaddr o s pres).1 a = true

/-- Where an address occurs first in the OS's list. -/
def firstOccurrence (o : ByteOrder) (list : List SockaddrStorage) (a : YoAddr) : ℕ :=
  list.findIdx fun s => yoAddrcmp (yoiUnixConvSockaddr o s a).1 a

variable {o : ByteOrder} {s : SockaddrStorage} {list : List SockaddrStorage} {l : List YoAddr}
  {a b c pres pres' : YoAddr} {res stack heap : ℕ → YoAddr} {fill : AddrFill} {i j : ℕ}

/-! ## Comparing addresses -/

/-- `yo_addrcmp` compares the types, and of an IPv4 address four bytes. -/
theorem yoAddrcmp_iff : yoAddrcmp a b = true ↔
    a.type = b.type ∧ (a.type = .ipv4 → a.v4 = b.v4) ∧ (a.type = .ipv6 → a.bytes = b.bytes) := by
  by_cases ht : a.type = b.type
  · cases ha : a.type with
    | ipv4 => simp [yoAddrcmp_ipv4 ha (ht ▸ ha), ← ht, ha, funext_iff]
    | ipv6 => simp [yoAddrcmp_ipv6 ha (ht ▸ ha), ← ht, ha]
  · exact iff_of_false (fun h => ht (type_eq_of_yoAddrcmp h)) fun h => ht h.1

theorem yoAddrcmp_comm (a b : YoAddr) : yoAddrcmp a b = yoAddrcmp b a := by
  rw [Bool.eq_iff_iff, yoAddrcmp_iff, yoAddrcmp_iff]
  constructor <;>
  · rintro ⟨ht, h4, h6⟩
    exact ⟨ht.symm, fun h => (h4 (ht ▸ h)).symm, fun h => (h6 (ht ▸ h)).symm⟩

theorem yoAddrcmp_trans (hab : yoAddrcmp a b = true) (hbc : yoAddrcmp b c = true) :
    yoAddrcmp a c = true := by
  obtain ⟨ht, h4, h6⟩ := yoAddrcmp_iff.mp hab
  obtain ⟨ht', h4', h6'⟩ := yoAddrcmp_iff.mp hbc
  exact yoAddrcmp_iff.mpr ⟨ht.trans ht', fun h => (h4 h).trans (h4' (ht ▸ h)),
    fun h => (h6 h).trans (h6' (ht ▸ h))⟩

/-- A socket address is converted to equal addresses, whatever they are stored over. -/
theorem yoAddrcmp_conv (o : ByteOrder) (s : SockaddrStorage) (pres pres' : YoAddr) :
    yoAddrcmp (yoiUnixConvSockaddr o s pres).1 (yoiUnixConvSockaddr o s pres').1 = true := by
  cases s with
  | inet sin => exact (yoAddrcmp_ipv4 rfl rfl).mpr fun i => by simp [yoiUnixConvSockaddr]
  | inet6 sin6 => exact yoAddrcmp_self _

/-- So it makes no difference to a comparison. -/
theorem yoAddrcmp_conv_left (o : ByteOrder) (s : SockaddrStorage) (a pres pres' : YoAddr) :
    yoAddrcmp (yoiUnixConvSockaddr o s pres).1 a =
      yoAddrcmp (yoiUnixConvSockaddr o s pres').1 a := by
  rw [Bool.eq_iff_iff]
  exact ⟨yoAddrcmp_trans (yoAddrcmp_conv ..), yoAddrcmp_trans (yoAddrcmp_conv ..)⟩

theorem isAddrOf_iff : IsAddrOf o s a ↔ yoAddrcmp (yoiUnixConvSockaddr o s pres).1 a = true :=
  ⟨fun h => h pres, fun h pres' => yoAddrcmp_conv_left o s a pres pres' ▸ h⟩

/-! ## The loops -/

/-- The first loop counts. -/
theorem addrCount_eq (n : ℕ) (list : List SockaddrStorage) :
    addrCount n list = n + list.length := by
  induction list generalizing n with
  | nil => rfl
  | cons s list ih =>
    rw [addrCount, ih, List.length_cons]
    omega

/-- The inner loop looks at the elements from `j` to `i`. -/
theorem addrFound_iff :
    addrFound a res i j = true ↔ ∃ k, j ≤ k ∧ k < i ∧ yoAddrcmp a (res k) = true := by
  fun_induction addrFound a res i j with
  | case1 j hj heq => exact iff_of_true rfl ⟨j, Nat.le_refl j, hj, heq⟩
  | case2 j hj hne ih =>
    rw [ih]
    constructor
    · rintro ⟨k, hk, hki, heq⟩
      exact ⟨k, by omega, hki, heq⟩
    · rintro ⟨k, hk, hki, heq⟩
      have hkj : k ≠ j := fun e => hne (e ▸ heq)
      exact ⟨k, by omega, hki, heq⟩
  | case3 j hj =>
    apply iff_of_false (by simp)
    rintro ⟨k, hk, hki, -⟩
    omega

namespace AddrFill

/-- The part of the array that is filled. -/
def kept (fill : AddrFill) : List YoAddr := (List.range fill.i).map fill.addr

/-- The inner loop looks an address up in it. -/
theorem addrFound_eq (fill : AddrFill) (a : YoAddr) :
    addrFound a fill.addr fill.i 0 = fill.kept.any (yoAddrcmp a) := by
  rw [Bool.eq_iff_iff, addrFound_iff, List.any_eq_true]
  simp [kept]

/-- A round keeps an address that is not in it. -/
theorem kept_addrKeep (fill : AddrFill) (a : YoAddr) :
    (addrKeep fill a).kept =
      if fill.kept.any (yoAddrcmp a) then fill.kept else fill.kept ++ [a] := by
  rw [addrKeep, addrFound_eq]
  split
  · rfl
  · have hold : (List.range fill.i).map (Function.update fill.addr fill.i a) =
        (List.range fill.i).map fill.addr :=
      List.map_congr_left fun k hk =>
        Function.update_of_ne (Nat.ne_of_lt (List.mem_range.mp hk)) _ _
    rw [kept, List.range_succ, List.map_append, hold]
    simp [kept]

/-- The outer loop collects the distinct addresses. -/
theorem kept_foldl (fill : AddrFill) (l : List YoAddr) :
    (l.foldl addrKeep fill).kept = collect yoAddrcmp fill.kept l := by
  induction l generalizing fill with
  | nil => rfl
  | cons a l ih =>
    rw [List.foldl_cons, ih, kept_addrKeep, collect_cons]
    split <;> rfl

/-- In `n` rounds it has written below `n` only. -/
theorem writes_foldl {n : ℕ} (hi : fill.i + l.length ≤ n) (hw : ∀ k ∈ fill.writes, k < n) :
    ∀ k ∈ (l.foldl addrKeep fill).writes, k < n := by
  induction l generalizing fill with
  | nil => exact hw
  | cons a l ih =>
    simp only [List.length_cons] at hi
    rw [List.foldl_cons, addrKeep]
    split
    · exact ih (by omega) hw
    · refine ih (by simp only; omega) fun k hk => ?_
      rcases List.mem_append.mp hk with hk | hk
      · exact hw k hk
      · obtain rfl := List.mem_singleton.mp hk
        omega

end AddrFill

/-! ## The result -/

/-- The addresses that the result has. -/
def YoAddrinfo.addrs (res : YoAddrinfo) : List YoAddr := (List.range res.n).map res.addr

/-- Two of them are in the order of the array. -/
theorem YoAddrinfo.of_pairwise {R : YoAddr → YoAddr → Prop} {res : YoAddrinfo}
    (h : res.addrs.Pairwise R) (hjk : i < j) (hk : j < res.n) : R (res.addr i) (res.addr j) := by
  rw [addrs, List.pairwise_map, List.pairwise_iff_getElem] at h
  have hR := h i j (by simp; omega) (by simpa using hk) hjk
  rwa [List.getElem_range, List.getElem_range] at hR

/-- The array is the list of the distinct addresses. -/
theorem addrs_yoDnsGetaddrinfo (o : ByteOrder) (list : List SockaddrStorage)
    (stack heap : ℕ → YoAddr) :
    (yoDnsGetaddrinfo o list stack heap).addrs = unixAddresses o list stack :=
  AddrFill.kept_foldl ⟨heap, [], 0⟩ _

/-- What is kept is in the order of first occurrence. -/
theorem pairwise_firstOccurrence (o : ByteOrder) (list : List SockaddrStorage)
    (stack : ℕ → YoAddr) :
    (unixAddresses o list stack).Pairwise fun a b =>
      firstOccurrence o list a < firstOccurrence o list b := by
  have hfirst : ∀ a, (list.zipIdx.map fun it => (yoiUnixConvSockaddr o it.1 (stack it.2)).1).findIdx
      (yoAddrcmp a) = firstOccurrence o list a := by
    intro a
    rw [firstOccurrence, List.findIdx_map]
    have hlist : list = list.zipIdx.map Prod.fst := (List.zipIdx_map_fst 0 list).symm
    conv_rhs => rw [hlist, List.findIdx_map]
    congr 1
    funext it
    rw [Function.comp, yoAddrcmp_comm, Function.comp, yoAddrcmp_conv_left]
  have hpairs := pairwise_findIdx_collect yoAddrcmp_self (fun _ _ _ => yoAddrcmp_trans)
  refine (hpairs _).imp fun hlt => ?_
  rwa [hfirst, hfirst] at hlt

/-- **Resolved addresses.**  Whatever the stack and the heap hold, the array has no two addresses
that `yo_addrcmp` calls equal; it has an equal of the address of every entry of the OS's list and of
nothing else; they are in the order of first occurrence in that list; and every element that is
written was allocated. -/
theorem yoDnsGetaddrinfo_spec (o : ByteOrder) (list : List SockaddrStorage)
    (stack heap : ℕ → YoAddr) :
    let res := yoDnsGetaddrinfo o list stack heap
    (∀ j k, j < res.n → k < res.n → j ≠ k → yoAddrcmp (res.addr j) (res.addr k) = false) ∧
      (∀ s ∈ list, ∃ k < res.n, IsAddrOf o s (res.addr k)) ∧
      (∀ k < res.n, ∃ s ∈ list, IsAddrOf o s (res.addr k)) ∧
      (∀ j k, j < k → k < res.n →
        firstOccurrence o list (res.addr j) < firstOccurrence o list (res.addr k)) ∧
      ∀ i ∈ res.writes, i < res.alloc := by
  intro res
  have haddrs : res.addrs = unixAddresses o list stack := addrs_yoDnsGetaddrinfo o list stack heap
  have hmem : ∀ a, a ∈ unixAddresses o list stack ↔ ∃ k < res.n, res.addr k = a := by
    intro a
    simp [← haddrs, YoAddrinfo.addrs]
  have hdistinct : res.addrs.Pairwise fun a b => yoAddrcmp a b = false :=
    haddrs ▸ pairwise_collect yoAddrcmp_comm .nil
  have horder : res.addrs.Pairwise fun a b =>
      firstOccurrence o list a < firstOccurrence o list b :=
    haddrs ▸ pairwise_firstOccurrence o list stack
  refine ⟨fun j k hj hk hne => ?_, fun s hs => ?_, fun k hk => ?_,
    fun j k hjk hk => YoAddrinfo.of_pairwise horder hjk hk, ?_⟩
  · rcases Nat.lt_or_gt_of_ne hne with hlt | hlt
    · exact YoAddrinfo.of_pairwise hdistinct hlt hk
    · rw [yoAddrcmp_comm]
      exact YoAddrinfo.of_pairwise hdistinct hlt hj
  · obtain ⟨i, hi⟩ := List.getElem?_of_mem hs
    obtain ⟨a, ha, heq⟩ := exists_mem_collect yoAddrcmp [] yoAddrcmp_self
      (List.mem_map_of_mem (f := fun it => (yoiUnixConvSockaddr o it.1 (stack it.2)).1)
        (List.mem_zipIdx_iff_getElem?.mpr hi : (s, i) ∈ list.zipIdx))
    obtain ⟨k, hk, rfl⟩ := (hmem a).mp ha
    exact ⟨k, hk, isAddrOf_iff.mpr heq⟩
  · have hin := mem_of_mem_collect ((hmem (res.addr k)).mpr ⟨k, hk, rfl⟩)
    obtain ⟨it, hit, heq⟩ := List.mem_map.mp (hin.resolve_left (by simp))
    exact ⟨it.1, List.fst_mem_of_mem_zipIdx hit, fun pres => heq ▸ yoAddrcmp_conv ..⟩
  · have hn : res.alloc = list.length := (addrCount_eq 0 list).trans (Nat.zero_add _)
    rw [hn]
    exact AddrFill.writes_foldl (by simp) (by simp)

end Yaooi
