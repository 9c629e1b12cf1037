import Mathlib
import Xv6.Lib.Ring
import Xv6.Kernel.Net

/-!
# The ARP Cache

The cache is an array that is overwritten from its beginning when it is full. Nothing in an entry says how old it
is, only the number of additions does; a packet of a known sender changes the entry in place, and only a packet
that is addressed to this host adds one.

- `Cache`: the array holds a list of entries, oldest first;
- `added`, `latest`: what the history of the packets says;
- `arp_cache_right`: what a lookup returns, after any packets.
-/

namespace Xv6.Kernel.Net

open Xv6.Lib

/-- `arp_lookup(ip)`; `none` for 0 -/
def arpLookup (s : State) (ip : UInt32) : Option (List UInt8) :=
  (s.arpIndex ip).map fun i => (s.arpCache i).mac

namespace Arp

/-! ## Entries, Oldest First -/

/-- The entry of a known address gets its new hardware address. -/
def update (es : List ArpEntry) (ip : UInt32) (mac : List UInt8) : List ArpEntry :=
  es.map fun e => if e.ip = ip then ⟨ip, mac⟩ else e

/-- A new entry takes the place of the oldest one if there is no other. -/
def add (es : List ArpEntry) (ip : UInt32) (mac : List UInt8) : List ArpEntry :=
  (if es.length < ARP_MAX_ENTRIES then es else es.tail) ++ [⟨ip, mac⟩]

def lookup (es : List ArpEntry) (ip : UInt32) : Option (List UInt8) :=
  (es.find? fun e => e.ip = ip).map ArpEntry.mac

/-- **The cache holds the entries** of the last of `k` additions. -/
structure Cache (s : State) (k : ℕ) (es : List ArpEntry) : Prop where
  idx : s.freeArpIdx = k
  length : es.length = min k ARP_MAX_ENTRIES
  ring : Ring.Holds s.arpCache ARP_MAX_ENTRIES (k - es.length) es
  nodup : (es.map ArpEntry.ip).Nodup

section Cache

variable {s : State} {k : ℕ} {es : List ArpEntry} {ip : UInt32} {mac : List UInt8}

/-- Nothing else of the state matters. -/
theorem Cache.of_eq {s' : State} (h : Cache s k es) (hidx : s'.freeArpIdx = s.freeArpIdx)
    (hcache : s'.arpCache = s.arpCache) : Cache s' k es :=
  ⟨hidx.trans h.idx, h.length, hcache ▸ h.ring, h.nodup⟩

/-- The indices below `min(free_arp_idx, ARP_MAX_ENTRIES)` are the cells of the ring. -/
theorem Cache.cell (h : Cache s k es) (i : ℕ) :
    i < min s.freeArpIdx ARP_MAX_ENTRIES ↔ ∃ j < es.length, i = (k - es.length + j) % ARP_MAX_ENTRIES := by
  have hlen := h.length
  rw [h.idx]
  simp only [ARP_MAX_ENTRIES] at *
  constructor
  · intro hi
    by_cases hk : k ≤ 64
    · exact ⟨i, by omega, by omega⟩
    · exact ⟨(i + 64 - (k - es.length) % 64) % 64, by omega, by omega⟩
  · rintro ⟨j, hj, rfl⟩
    omega

theorem Cache.get (h : Cache s k es) {j : ℕ} (hj : j < es.length) :
    s.arpCache ((k - es.length + j) % ARP_MAX_ENTRIES) = es[j] := h.ring.get j hj

/-- Entries with the same address are in the same place. -/
theorem Cache.inj (h : Cache s k es) {i j : ℕ} (hi : i < es.length) (hj : j < es.length) (heq : es[i].ip = es[j].ip) :
    i = j := by
  have hnodup := List.nodup_iff_injective_get.mp h.nodup
  have hget := @hnodup ⟨i, by simpa using hi⟩ ⟨j, by simpa using hj⟩ (by simpa using heq)
  exact Fin.mk.inj hget

theorem Cache.arpIndex_some (h : Cache s k es) {i : ℕ} (hi : s.arpIndex ip = some i) :
    ∃ j, ∃ hj : j < es.length, i = (k - es.length + j) % ARP_MAX_ENTRIES ∧ es[j].ip = ip := by
  unfold State.arpIndex at hi
  obtain ⟨j, hj, hij⟩ := (h.cell i).mp (List.mem_range.mp (List.mem_of_find?_eq_some hi))
  have hip := List.find?_some hi
  simp only [hij, h.get hj, decide_eq_true_eq] at hip
  exact ⟨j, hj, hij, hip⟩

theorem Cache.arpIndex_none (h : Cache s k es) : s.arpIndex ip = none ↔ ∀ e ∈ es, e.ip ≠ ip := by
  unfold State.arpIndex
  rw [List.find?_eq_none]
  constructor
  · intro hnone e he
    obtain ⟨j, hj, rfl⟩ := List.mem_iff_getElem.mp he
    have hcell := hnone _ (List.mem_range.mpr ((h.cell _).mpr ⟨j, hj, rfl⟩))
    rw [h.get hj, decide_eq_true_eq] at hcell
    exact hcell
  · intro hnone i hi
    obtain ⟨j, hj, rfl⟩ := (h.cell i).mp (List.mem_range.mp hi)
    rw [h.get hj, decide_eq_true_eq]
    exact hnone _ (List.getElem_mem hj)

/-! ### The operations on the entries -/

/-- **A lookup** is one in the list. -/
theorem Cache.arpLookup_eq (h : Cache s k es) (ip : UInt32) : arpLookup s ip = lookup es ip := by
  unfold arpLookup lookup
  cases hi : s.arpIndex ip with
  | none =>
    have hnone := h.arpIndex_none.mp hi
    rw [List.find?_eq_none.mpr fun e he => by simpa using hnone e he]
    rfl
  | some i =>
    obtain ⟨j, hj, rfl, hip⟩ := h.arpIndex_some hi
    -- the list has no other entry with this address
    have hfind : es.find? (fun e => e.ip = ip) = some es[j] := by
      cases hf : es.find? fun e => e.ip = ip with
      | none => exact absurd hip (by simpa using List.find?_eq_none.mp hf _ (List.getElem_mem hj))
      | some e =>
        obtain ⟨j', hj', rfl⟩ := List.mem_iff_getElem.mp (List.mem_of_find?_eq_some hf)
        have hip' := List.find?_some hf
        rw [decide_eq_true_eq] at hip'
        simp only [(h.inj hj' hj (hip'.trans hip.symm))]
    rw [hfind]
    exact congrArg (fun e => some e.mac) (h.get hj)

theorem update_of_forall_ne (hne : ∀ e ∈ es, e.ip ≠ ip) : update es ip mac = es := by
  have hid : ∀ e ∈ es, (if e.ip = ip then (⟨ip, mac⟩ : ArpEntry) else e) = id e := fun e he => if_neg (hne e he)
  exact (List.map_congr_left hid).trans (List.map_id es)

theorem Cache.updateArp_hit (h : Cache s k es) :
    (updateArp s ip mac).2 = true ↔ ∃ e ∈ es, e.ip = ip := by
  have hnone : s.arpIndex ip = none ↔ ∀ e ∈ es, e.ip ≠ ip := h.arpIndex_none
  unfold updateArp
  cases hi : s.arpIndex ip with
  | none => simpa [hi] using hnone
  | some i => simpa [hi] using hnone

/-- **An update** changes the entry of the address. -/
theorem Cache.updateArp_spec (h : Cache s k es) : Cache (updateArp s ip mac).1 k (update es ip mac) := by
  have hlen : (update es ip mac).length = es.length := List.length_map _
  have hips : (update es ip mac).map ArpEntry.ip = es.map ArpEntry.ip := by
    unfold update
    rw [List.map_map]
    refine List.map_congr_left fun e _ => ?_
    by_cases he : e.ip = ip
    · simp [he]
    · simp [he]
  have hidx : (updateArp s ip mac).1.freeArpIdx = s.freeArpIdx := by
    unfold updateArp
    cases s.arpIndex ip <;> rfl
  refine ⟨hidx.trans h.idx, hlen.trans h.length, ⟨hlen.le.trans h.ring.fits, fun j hj => ?_⟩, hips ▸ h.nodup⟩
  have hj' : j < es.length := hlen ▸ hj
  have hnew : (update es ip mac)[j] = if es[j].ip = ip then ⟨ip, mac⟩ else es[j] := List.getElem_map _
  rw [hnew, hlen]
  unfold updateArp
  -- at most one entry has the address, as no address is in the ring twice
  cases hi : s.arpIndex ip with
  | none =>
    rw [if_neg (h.arpIndex_none.mp hi _ (List.getElem_mem hj'))]
    exact h.get hj'
  | some i =>
    obtain ⟨j₀, hj₀, rfl, hip⟩ := h.arpIndex_some hi
    by_cases heq : j = j₀
    · subst heq
      rw [if_pos hip]
      exact Function.update_self ..
    · rw [if_neg fun hj => heq (h.inj hj' hj₀ (hj.trans hip.symm))]
      refine (Function.update_of_ne ?_ ..).trans (h.get hj')
      have hfits := h.ring.fits
      rcases Nat.lt_or_gt_of_ne heq with hlt | hgt
      · exact Ring.cell_ne hlt (hj₀.trans_le hfits)
      · exact (Ring.cell_ne hgt (hj'.trans_le hfits)).symm

/-- **An addition** appends an entry, and the oldest one goes when the cache is full. -/
theorem Cache.addArp_spec (h : Cache s k es) (hnew : ∀ e ∈ es, e.ip ≠ ip) :
    Cache (addArp s ip mac) (k + 1) (add es ip mac) := by
  have hlen := h.length
  -- the entries that stay, and where they begin
  obtain ⟨es', hes', hsub, hlt, hstart, hring⟩ : ∃ es' : List ArpEntry,
      (if es.length < ARP_MAX_ENTRIES then es else es.tail) = es' ∧ es'.Sublist es ∧
        es'.length < ARP_MAX_ENTRIES ∧ es'.length = min k (ARP_MAX_ENTRIES - 1) ∧
        Ring.Holds s.arpCache ARP_MAX_ENTRIES (k - es'.length) es' := by
    by_cases hfull : es.length < ARP_MAX_ENTRIES
    · exact ⟨es, if_pos hfull, List.Sublist.refl _, hfull, by omega, h.ring⟩
    · have hring := h.ring
      have hfits := hring.fits
      cases es with
      | nil => exact absurd (by decide) hfull
      | cons e es' =>
        rw [List.length_cons] at hlen hfull hfits
        refine ⟨es', if_neg (by rwa [List.length_cons]), List.sublist_cons_self _ _, by omega, by omega, ?_⟩
        have hpop := hring.pop
        rwa [List.length_cons, show k - (es'.length + 1) + 1 = k - es'.length by omega] at hpop
  have hadd : add es ip mac = es' ++ [⟨ip, mac⟩] := congrArg (· ++ [(⟨ip, mac⟩ : ArpEntry)]) hes'
  have hlen' : (es' ++ [(⟨ip, mac⟩ : ArpEntry)]).length = es'.length + 1 := List.length_append
  rw [hadd]
  refine ⟨congrArg (· + 1) h.idx, by omega, ?_, ?_⟩
  · have hpush := hring.push hlt ⟨ip, mac⟩
    rw [show k - es'.length + es'.length = k by omega] at hpush
    rw [hlen', Nat.add_sub_add_right]
    have hcache : (addArp s ip mac).arpCache = Function.update s.arpCache (k % ARP_MAX_ENTRIES) ⟨ip, mac⟩ := by
      rw [← h.idx]
      rfl
    rw [hcache]
    exact hpush
  · rw [List.map_append, List.nodup_append]
    refine ⟨h.nodup.sublist (hsub.map _), List.nodup_singleton _, fun a ha b hb hab => ?_⟩
    obtain ⟨e, he, rfl⟩ := List.mem_map.mp ha
    obtain rfl := List.mem_singleton.mp hb
    exact hnew e (hsub.subset he) hab

end Cache

/-! ## The history -/

/-- A packet with a valid header: where it comes from, and whether it is addressed to this host -/
structure Packet where
  ip : UInt32
  mac : List UInt8
  toLocal : Bool

/-- The packet in an ARP header, if it is valid -/
def packet (arphdr : List UInt8) : Option Packet :=
  if bswaps (uint16At arphdr 0) ≠ ARP_HRD_ETHER ∨ bswaps (uint16At arphdr 2) ≠ ETHTYPE_IP ∨
      (arphdr.getD 4 0).toNat ≠ ETHADDR_LEN ∨ (arphdr.getD 5 0).toNat ≠ 4 then none
  else some ⟨bswapl (uint32At arphdr 14), (arphdr.drop 8).take ETHADDR_LEN, bswapl (uint32At arphdr 24) == localIp⟩

/-- The packet in a buffer -/
def received (m : Mbuf) : Option Packet := (mbufpull m sizeofArp).bind fun (arphdr, _) => packet arphdr

/-- The addresses that have been added, the last one first. The packets are the history, the last one first. A packet
    that is addressed to this host adds its sender, unless it is among the last ones already. -/
def added : List Packet → List UInt32
  | [] => []
  | p :: h =>
    if p.toLocal ∧ p.ip ∉ (added h).take ARP_MAX_ENTRIES then p.ip :: added h else added h

/-- The addresses that are in the cache -/
def cached (h : List Packet) : List UInt32 := (added h).take ARP_MAX_ENTRIES

/-- The hardware address that the last packet from `ip` carried -/
def latest (h : List Packet) (ip : UInt32) : Option (List UInt8) := (h.find? fun p => p.ip = ip).map Packet.mac

def entries (h : List Packet) : List ArpEntry := (cached h).reverse.map fun ip => ⟨ip, (latest h ip).getD []⟩

section History

variable {h : List Packet} {p : Packet}

theorem latest_cons (ip : UInt32) : latest (p :: h) ip = if p.ip = ip then some p.mac else latest h ip := by
  unfold latest
  rw [List.find?_cons]
  by_cases hp : p.ip = ip
  · simp [hp]
  · simp [hp]

/-- An address has been added by a packet. -/
theorem latest_of_mem {ip : UInt32} (hip : ip ∈ added h) : ∃ mac, latest h ip = some mac := by
  induction h with
  | nil => cases hip
  | cons p h ih =>
    rw [latest_cons]
    by_cases hp : p.ip = ip
    · exact ⟨p.mac, if_pos hp⟩
    · rw [if_neg hp]
      rw [added] at hip
      split at hip
      · exact ih ((List.mem_cons.mp hip).resolve_left fun he => hp he.symm)
      · exact ih hip

theorem exists_mem_entries {ip : UInt32} : (∃ e ∈ entries h, e.ip = ip) ↔ ip ∈ cached h := by
  simp [entries]

/-- The entries after a packet that adds nothing -/
theorem entries_update (hadded : added (p :: h) = added h) : entries (p :: h) = update (entries h) p.ip p.mac := by
  unfold entries update
  rw [List.map_map, cached, hadded]
  refine List.map_congr_left fun ip _ => ?_
  dsimp only [Function.comp]
  rw [latest_cons]
  by_cases hp : p.ip = ip
  · rw [if_pos hp, if_pos hp.symm, hp]
    rfl
  · rw [if_neg hp, if_neg fun he => hp he.symm]

/-- The entries after a packet that adds its sender -/
theorem entries_add (hadd : p.toLocal ∧ p.ip ∉ cached h) :
    entries (p :: h) = add (entries h) p.ip p.mac := by
  have hlen : (entries h).length = (cached h).length := by simp [entries]
  have hcached : cached (p :: h) = p.ip :: (added h).take (ARP_MAX_ENTRIES - 1) := by
    have hadded : added (p :: h) = p.ip :: added h := if_pos hadd
    rw [cached, hadded]
    rfl
  -- the other entries do not change, and the oldest one is dropped
  have hkeep : (((added h).take (ARP_MAX_ENTRIES - 1)).reverse.map fun ip =>
        (⟨ip, (latest (p :: h) ip).getD []⟩ : ArpEntry))
      = if (entries h).length < ARP_MAX_ENTRIES then entries h else (entries h).tail := by
    have hsame : ∀ ip ∈ (added h).take (ARP_MAX_ENTRIES - 1), latest (p :: h) ip = latest h ip := fun ip hip => by
      rw [latest_cons, if_neg]
      rintro rfl
      exact hadd.2 (List.take_subset_take_left _ (Nat.pred_le _) hip)
    have hmap : (((added h).take (ARP_MAX_ENTRIES - 1)).reverse.map fun ip =>
          (⟨ip, (latest (p :: h) ip).getD []⟩ : ArpEntry))
        = ((added h).take (ARP_MAX_ENTRIES - 1)).reverse.map fun ip => ⟨ip, (latest h ip).getD []⟩ :=
      List.map_congr_left fun ip hip => by rw [hsame ip (List.mem_reverse.mp hip)]
    rw [hmap, hlen]
    unfold entries cached
    rw [List.length_take]
    by_cases hfull : min ARP_MAX_ENTRIES (added h).length < ARP_MAX_ENTRIES
    · rw [if_pos hfull, List.take_of_length_le (by omega), List.take_of_length_le (by omega)]
    · have hfull' : min ARP_MAX_ENTRIES (added h).length = ARP_MAX_ENTRIES := by omega
      rw [if_neg hfull, ← List.map_tail, List.tail_reverse, List.dropLast_eq_take, List.length_take, hfull',
        List.take_take, Nat.min_eq_left (Nat.sub_le _ _)]
  have hnew : latest (p :: h) p.ip = some p.mac := by rw [latest_cons, if_pos rfl]
  unfold add
  rw [← hkeep, entries, hcached, List.reverse_cons, List.map_append, List.map_singleton, hnew]
  rfl

end History

/-! ## Any packets -/

/-- The cache holds what the history says. -/
def Holds (s : State) (h : List Packet) : Prop := Cache s (added h).length (entries h)

theorem Holds.lookup {s : State} {h : List Packet} (hs : Holds s h) (ip : UInt32) :
    arpLookup s ip = if ip ∈ cached h then latest h ip else none := by
  rw [hs.arpLookup_eq, Arp.lookup]
  by_cases hip : ip ∈ cached h
  · rw [if_pos hip]
    obtain ⟨mac, hmac⟩ := latest_of_mem (List.mem_of_mem_take hip)
    cases hf : (entries h).find? fun e => e.ip = ip with
    | none =>
      obtain ⟨e, he, heq⟩ := exists_mem_entries.mpr hip
      exact absurd heq (by simpa using List.find?_eq_none.mp hf e he)
    | some e =>
      have heq := List.find?_some hf
      obtain ⟨ip', -, rfl⟩ := List.mem_map.mp (List.mem_of_find?_eq_some hf)
      obtain rfl : ip' = ip := of_decide_eq_true heq
      rw [hmac]
      rfl
  · rw [if_neg hip, List.find?_eq_none.mpr fun e he => ?_]
    · rfl
    · rw [decide_eq_true_eq]
      exact fun heq => hip (exists_mem_entries.mp ⟨e, he, heq⟩)

/-- **One valid packet**: it updates an entry, and adds one if there is none and the packet is for this host. -/
theorem holds_arpInput {s : State} {h : List Packet} (hs : Holds s h) (arphdr : List UInt8) :
    Holds (arpInput s arphdr) ((packet arphdr).toList ++ h) := by
  unfold arpInput packet
  by_cases hbad : bswaps (uint16At arphdr 0) ≠ ARP_HRD_ETHER ∨ bswaps (uint16At arphdr 2) ≠ ETHTYPE_IP ∨
      (arphdr.getD 4 0).toNat ≠ ETHADDR_LEN ∨ (arphdr.getD 5 0).toNat ≠ 4
  · rw [if_pos hbad, if_pos hbad]
    exact hs
  rw [if_neg hbad, if_neg hbad]
  generalize bswapl (uint32At arphdr 14) = ip
  generalize (arphdr.drop 8).take ETHADDR_LEN = mac
  generalize bswapl (uint32At arphdr 24) = tip
  dsimp only [Option.toList_some, List.singleton_append]
  set p : Packet := ⟨ip, mac, tip == localIp⟩ with hp
  have hupdate : Cache (updateArp s ip mac).1 (added h).length (update (entries h) ip mac) := hs.updateArp_spec
  have hhit : (updateArp s ip mac).2 = true ↔ ip ∈ cached h := hs.updateArp_hit.trans exists_mem_entries
  generalize updateArp s ip mac = r at *
  obtain ⟨s', merged⟩ := r
  dsimp only at *
  -- a packet for another host updates an entry, but never adds one
  by_cases htip : tip = localIp
  · rw [if_neg (not_not.mpr htip)]
    have hlocal : p.toLocal = true := beq_iff_eq.mpr htip
    have hout : Holds (if merged then s' else addArp s' ip mac) (p :: h) := by
      cases merged with
      | true =>
        have hadded : added (p :: h) = added h := if_neg fun hadd => hadd.2 (hhit.mp rfl)
        unfold Holds
        rw [hadded, entries_update hadded]
        exact hupdate
      | false =>
        have hnew : ip ∉ cached h := fun hip => absurd (hhit.mpr hip) Bool.false_ne_true
        have hadded : added (p :: h) = ip :: added h := if_pos ⟨hlocal, hnew⟩
        have hsame : update (entries h) ip mac = entries h := update_of_forall_ne fun e he heq =>
          hnew (exists_mem_entries.mp ⟨e, he, heq⟩)
        rw [hsame] at hupdate
        unfold Holds
        rw [hadded, entries_add ⟨hlocal, hnew⟩]
        exact hupdate.addArp_spec fun e he heq => hnew (exists_mem_entries.mp ⟨e, he, heq⟩)
    split
    · exact hout.of_eq rfl rfl
    · exact hout.of_eq rfl rfl
  · rw [if_pos htip]
    have hadded : added (p :: h) = added h := if_neg fun hadd => htip (beq_iff_eq.mp hadd.1)
    unfold Holds
    rw [hadded, entries_update hadded]
    exact hupdate

/-- **One packet**: the cache holds what the history says with the packet. -/
theorem holds_netRxArp {s : State} {h : List Packet} (hs : Holds s h) (m : Mbuf) :
    Holds (netRxArp s m) ((received m).toList ++ h) := by
  unfold netRxArp received
  cases mbufpull m sizeofArp with
  | none => exact hs.of_eq rfl rfl
  | some r => exact (holds_arpInput hs r.1).of_eq rfl rfl

/-- What has been received, the last packet first -/
def history (ms : List Mbuf) : List Packet := (ms.filterMap received).reverse

theorem holds_run {s : State} {h : List Packet} (hs : Holds s h) (ms : List Mbuf) :
    Holds (ms.foldl netRxArp s) (history ms ++ h) := by
  induction ms generalizing s h with
  | nil => exact hs
  | cons m ms ih =>
    have hstep := ih (holds_netRxArp hs m)
    have hhist : history (m :: ms) ++ h = history ms ++ ((received m).toList ++ h) := by
      unfold history
      rw [List.filterMap_cons]
      cases received m with
      | none => rfl
      | some p => simp
    rw [hhist]
    exact hstep

/-- **The ARP cache is right**, after any packets: the entries have different addresses, and a lookup returns the
    hardware address of the last packet from an address that is among the last ones that have been added, and
    nothing for other addresses. The index counts the additions; fewer than 2^31 do not overflow an `int`. -/
theorem arp_cache_right (s : State) (ms : List Mbuf) :
    let t := ms.foldl netRxArp { s with freeArpIdx := 0 }
    t.freeArpIdx = (added (history ms)).length ∧
    (∀ i j, i < min t.freeArpIdx ARP_MAX_ENTRIES → j < min t.freeArpIdx ARP_MAX_ENTRIES →
      (t.arpCache i).ip = (t.arpCache j).ip → i = j) ∧
    ∀ ip, arpLookup t ip =
      if ip ∈ (added (history ms)).take ARP_MAX_ENTRIES then latest (history ms) ip else none := by
  have hboot : Holds { s with freeArpIdx := 0 } [] := ⟨rfl, rfl, Ring.holds_nil, List.nodup_nil⟩
  have hrun := holds_run hboot ms
  rw [List.append_nil] at hrun
  refine ⟨hrun.idx, fun i j hi hj heq => ?_, hrun.lookup⟩
  obtain ⟨i', hi', rfl⟩ := (hrun.cell i).mp hi
  obtain ⟨j', hj', rfl⟩ := (hrun.cell j).mp hj
  rw [hrun.get hi', hrun.get hj'] at heq
  rw [hrun.inj hi' hj' heq]

end Arp

end Xv6.Kernel.Net
