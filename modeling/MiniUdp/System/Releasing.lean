import MiniUdp.System.Sending

/-!
# Putting out ordered packets

When an ordered packet has been stored, the loop over the window puts out the
messages of the packet at the head and of those that follow it without a gap
(`Releases`), as long as the head can be compared with the numbers of the window
(`Comparable`).
-/

namespace MiniUdp

open Serial InnerUdpCommunicator

variable {S R : Type}

/-- The head `h` is at most a window behind the number `t` after the newest one, or no number has
passed the middle of the number space. -/
def Comparable (h t : Nat) : Prop := t ≤ h + 32 ∨ t ≤ 32768

/-- The test that ends the loop, for packet `i` of the window and the head `h`. -/
theorem wrappingGt_head {i h t : Nat} (hcmp : Comparable h t) (hle : h ≤ t) (hi : t ≤ i + 32)
    (hit : i < t) : wrappingGt (seq i) (seq h) 32 = true ↔ h < i := by
  have h32 : (32 : UInt16).toNat = 32 := rfl
  have hd : (seq (i : Int) - seq h).toNat = (((i : Int) - h) % 65536).toNat := dist_seq _ _
  have hd' : (seq (h : Int) - seq i).toNat = (((h : Int) - i) % 65536).toNat := dist_seq _ _
  by_cases near : t ≤ h + 32
  · rw [wrappingGt_iff (by rw [h32]; decide) (by rw [h32, hd, hd']; omega), h32, hd]
    omega
  · have ht := hcmp.resolve_left near
    by_cases close : i ≤ h + 32
    · rw [wrappingGt_iff (by rw [h32]; decide) (by rw [h32, hd, hd']; omega), h32, hd]
      omega
    · rw [wrappingGt_far (by rw [h32, hd]; omega) (by rw [h32, hd']; omega), toNat_seq, toNat_seq]
      omega

/-- The loop has put out the `n` packets from `h` on. -/
structure Releases (t h n : Nat) (com com' : InnerUdpCommunicator S R) : Prop where
  head : com'.orderedReadPacketHead = seq (h + n : Nat)
  le : h + n ≤ t
  stored : ∀ k, h ≤ k → k < h + n →
    t ≤ k + 32 ∧ (com.reliableOrderedReceivedPackets.get (seq k)).isSome
  queue : com'.orderedRecvQueue = com.orderedRecvQueue ++ (List.range' h n).flatMap fun k : Nat =>
    ((com.reliableOrderedReceivedPackets.get (seq k)).map Packet.messages).getD []
  emptied : ∀ k, h ≤ k → k < h + n → ∀ p, com.reliableOrderedReceivedPackets.get (seq k) = some p →
    com'.reliableOrderedReceivedPackets.get (seq k) = some { p with messages := [] }
  rest : ∀ id, (∀ k, h ≤ k → k < h + n → id ≠ seq k) →
    com'.reliableOrderedReceivedPackets.get id = com.reliableOrderedReceivedPackets.get id
  stop : h + n < t → t ≤ h + n + 32 →
    com.reliableOrderedReceivedPackets.get (seq (h + n : Nat)) = none

theorem Releases.none {t h : Nat} {com : InnerUdpCommunicator S R}
    (hhead : com.orderedReadPacketHead = seq h) (hle : h ≤ t)
    (hstop : h < t → t ≤ h + 32 → com.reliableOrderedReceivedPackets.get (seq h) = .none) :
    Releases t h 0 com com where
  head := hhead
  le := hle
  stored k h1 h2 := by omega
  queue := by simp
  emptied k h1 h2 := by omega
  rest _ _ := rfl
  stop := hstop

/-- The packet at the head is put out. -/
def releaseHead (com : InnerUdpCommunicator S R) (id : UInt16) (packet : Packet R) :
    InnerUdpCommunicator S R :=
  { com with
    reliableOrderedReceivedPackets :=
      com.reliableOrderedReceivedPackets.set id (some { packet with messages := [] })
    orderedReadPacketHead := com.orderedReadPacketHead + 1
    orderedRecvQueue := com.orderedRecvQueue ++ packet.messages }

theorem get_releaseHead {com : InnerUdpCommunicator S R} {id : UInt16} {packet : Packet R}
    (h : com.reliableOrderedReceivedPackets.get id = some packet) (j : UInt16) :
    (releaseHead com id packet).reliableOrderedReceivedPackets.get j =
      if j = id then some { packet with messages := [] }
      else com.reliableOrderedReceivedPackets.get j :=
  RingBuffer.get_set _ _ (RingBuffer.dist_of_get h)

theorem releaseOrdered_head {com : InnerUdpCommunicator S R} {id : UInt16} {packet : Packet R}
    (hhead : com.orderedReadPacketHead = id)
    (hget : com.reliableOrderedReceivedPackets.get id = some packet) (ids : List UInt16) :
    releaseOrdered (id :: ids) com = releaseOrdered ids (releaseHead com id packet) := by
  rw [releaseOrdered, if_pos hhead.symm, hget]
  rfl

theorem Releases.cons {t h n : Nat} {com com' : InnerUdpCommunicator S R} {packet : Packet R}
    (hget : com.reliableOrderedReceivedPackets.get (seq h) = some packet) (hnear : t ≤ h + 32)
    (hr : Releases t (h + 1) n (releaseHead com (seq h) packet) com') :
    Releases t h (n + 1) com com' := by
  have hle := hr.le
  -- the later numbers are other numbers
  have hne : ∀ k, h + 1 ≤ k → k ≤ t → seq (k : Int) ≠ seq h := fun k h1 h2 e => by
    have := index_eq e (by omega) (by omega)
    omega
  have hsame : ∀ k, h + 1 ≤ k → k ≤ t →
      (releaseHead com (seq h) packet).reliableOrderedReceivedPackets.get (seq k) =
        com.reliableOrderedReceivedPackets.get (seq k) := fun k h1 h2 => by
    rw [get_releaseHead hget, if_neg (hne k h1 h2)]
  have e : h + 1 + n = h + (n + 1) := by omega
  refine ⟨?_, by omega, fun k h1 h2 => ?_, ?_, fun k h1 h2 p hp => ?_, fun id hid => ?_, ?_⟩
  · rw [hr.head, e]
  · by_cases hk : k = h
    · subst hk
      exact ⟨hnear, by rw [hget]; rfl⟩
    · have := hr.stored k (by omega) (by omega)
      rwa [hsame k (by omega) (by omega)] at this
  · rw [hr.queue, List.range'_succ, List.flatMap_cons, hget]
    show com.orderedRecvQueue ++ packet.messages ++ _ = _
    rw [List.append_assoc]
    congr 2
    refine List.flatMap_congr fun k hk => ?_
    have := List.mem_range'_1.mp hk
    rw [hsame k (by omega) (by omega)]
  · by_cases hk : k = h
    · subst hk
      rw [hget] at hp
      cases hp
      rw [hr.rest _ fun j h3 h4 => (hne j (by omega) (by omega)).symm, get_releaseHead hget,
        if_pos rfl]
    · exact hr.emptied k (by omega) (by omega) p (by rwa [hsame k (by omega) (by omega)])
  · rw [hr.rest id fun k h1 h2 => hid k (by omega) (by omega), get_releaseHead hget,
      if_neg (hid h (Nat.le_refl h) (by omega))]
  · intro h1 h2
    have := hr.stop (by omega) (by omega)
    rwa [e, hsame _ (by omega) (by omega)] at this

/-- The loop over the packets `ks` of the window, of which those before the head are done. -/
theorem releases_map_seq {t : Nat} (ks : List Nat) (hsorted : ks.Pairwise (· < ·)) {h : Nat}
    {com : InnerUdpCommunicator S R} (hhead : com.orderedReadPacketHead = seq h) (hle : h ≤ t)
    (hcmp : Comparable h t) (hks : ∀ k ∈ ks, k < t ∧ t ≤ k + 32 ∧
      (com.reliableOrderedReceivedPackets.get (seq k)).isSome)
    (hall : ∀ k, h ≤ k → k < t → t ≤ k + 32 →
      (com.reliableOrderedReceivedPackets.get (seq k)).isSome → k ∈ ks) :
    ∃ n, Releases t h n com (releaseOrdered (ks.map fun k : Nat => seq k) com) := by
  induction ks generalizing com h with
  | nil =>
    refine ⟨0, .none hhead hle fun h1 h2 => ?_⟩
    by_contra hc
    exact absurd (hall h (Nat.le_refl h) h1 h2 (Option.isSome_iff_ne_none.mpr hc)) List.not_mem_nil
  | cons i ks ih =>
    obtain ⟨hlt, hsorted⟩ := List.pairwise_cons.mp hsorted
    obtain ⟨hit, hin, hsome⟩ := hks i (by simp)
    have hks' : ∀ k ∈ ks, k < t ∧ t ≤ k + 32 ∧
        (com.reliableOrderedReceivedPackets.get (seq k)).isSome := fun k hk => hks k (by simp [hk])
    rw [List.map_cons]
    by_cases heq : i = h
    · -- the packet at the head is there
      subst heq
      obtain ⟨packet, hget⟩ := Option.isSome_iff_exists.mp hsome
      have hsame : ∀ k : Nat, ((releaseHead com (seq i) packet).reliableOrderedReceivedPackets.get
          (seq k)).isSome = (com.reliableOrderedReceivedPackets.get (seq k)).isSome := fun k => by
        rw [get_releaseHead hget]
        split
        · rename_i e
          rw [e, hget]; rfl
        · rfl
      have hhead' : (releaseHead com (seq i) packet).orderedReadPacketHead = seq (i + 1 : Nat) := by
        show com.orderedReadPacketHead + 1 = _
        rw [hhead, ← seq_add_one]; rfl
      obtain ⟨n, hn⟩ := ih hsorted hhead' (by omega)
        (by unfold Comparable at hcmp ⊢; omega)
        (fun k hk => by rw [hsame]; exact hks' k hk)
        (fun k h1 h2 h3 h4 => by
          rw [hsame] at h4
          have := hall k (by omega) h2 h3 h4
          exact (List.mem_cons.mp this).resolve_left (by omega))
      rw [releaseOrdered_head hhead hget]
      exact ⟨n + 1, hn.cons hget hin⟩
    · have hne : seq (i : Int) ≠ seq h := fun e => by
        unfold Comparable at hcmp
        exact heq (index_eq e (by omega) (by omega))
      rw [releaseOrdered, hhead, if_neg hne]
      by_cases hgt : h < i
      · -- all packets left are after the head
        rw [if_pos ((wrappingGt_head hcmp hle hin hit).mpr hgt)]
        refine ⟨0, .none hhead hle fun h1 h2 => ?_⟩
        by_contra hc
        rcases List.mem_cons.mp (hall h (Nat.le_refl h) h1 h2 (Option.isSome_iff_ne_none.mpr hc))
          with e | hmem
        · omega
        · have := hlt h hmem
          omega
      · rw [if_neg fun hc => hgt ((wrappingGt_head hcmp hle hin hit).mp hc)]
        exact ih hsorted hhead hle hcmp hks' fun k h1 h2 h3 h4 =>
          (List.mem_cons.mp (hall k h1 h2 h3 h4)).resolve_left (by omega)

/-- The packets of a receive window, oldest first. -/
theorem keys_eq_map_seq {T : Type} {r : RingBuffer T 32} {accepted : List Nat}
    (h : RecvInv r.newest (fun id => (r.get id).isSome) accepted) :
    ∃ ks : List Nat, r.keys = ks.map (fun k : Nat => seq k) ∧ ks.Pairwise (· < ·) ∧
      ∀ k, k ∈ ks ↔ k ∈ accepted ∧ top accepted ≤ k + 32 := by
  have hw := RingBuffer.window_seq h.newest
  let f : Nat → UInt16 := fun j => seq ((top accepted : Int) - 1 + 1 - (32 : Nat) + j)
  -- places of the window before the first packet are empty
  have hplace : ∀ j < 32, (r.get (f j)).isSome →
      top accepted + j - 32 ∈ accepted ∧ 32 ≤ top accepted + j := fun j hj hs => by
    obtain ⟨k, hk, e, hn⟩ := (h.received _).mp hs
    have := lt_top hk
    have := seq_inj e (by omega) (by omega)
    have e' : top accepted + j - 32 = k := by omega
    exact ⟨e' ▸ hk, by omega⟩
  have hmem : ∀ j ∈ (List.range 32).filter (fun j => (r.get (f j)).isSome),
      j < 32 ∧ (r.get (f j)).isSome := fun j hj => by
    simpa using List.mem_filter.mp hj
  refine ⟨((List.range 32).filter fun j => (r.get (f j)).isSome).map
    fun j => top accepted + j - 32, ?_, ?_, fun k => ?_⟩
  · rw [RingBuffer.keys, hw, List.filter_map, List.map_map]
    refine List.map_congr_left fun j hj => ?_
    obtain ⟨hj, hs⟩ := hmem j hj
    have := (hplace j hj hs).2
    show f j = seq (top accepted + j - 32 : Nat)
    exact congrArg seq (by omega)
  · rw [List.pairwise_map]
    refine (List.pairwise_lt_range.filter _).imp_of_mem fun {i j} hi hj hij => ?_
    have := (hplace i (hmem i hi).1 (hmem i hi).2).2
    omega
  · rw [List.mem_map]
    constructor
    · rintro ⟨j, hj, rfl⟩
      obtain ⟨hj, hs⟩ := hmem j hj
      obtain ⟨h1, h2⟩ := hplace j hj hs
      refine ⟨h1, ?_⟩
      show top accepted ≤ top accepted + j - 32 + 32
      omega
    · rintro ⟨hk, hn⟩
      have := lt_top hk
      have e : f (k + 32 - top accepted) = seq k := congrArg seq (by omega)
      refine ⟨k + 32 - top accepted, List.mem_filter.mpr ⟨List.mem_range.mpr (by omega), ?_⟩,
        by omega⟩
      rw [e]
      exact (h.received _).mpr ⟨k, hk, rfl, hn⟩

end MiniUdp
