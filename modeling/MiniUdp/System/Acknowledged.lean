import MiniUdp.System.Run

/-!
# Acknowledged packets

An ordered packet is acknowledged when it is stored, before it is put out. If
the sender gives packets up, a far newer packet can push a stored one out of the
window, and the sender will not send it again (`evicted_not_kept`). As long as
no acceptance does that (`Keeps`), every acknowledged packet has been put out or
is still stored, and the first acceptance that does it loses one
(`acknowledged_kept`).
-/

namespace MiniUdp

open Serial InnerUdpCommunicator

variable {S R Buf D : Type}

/-- The packet `d` that `y` accepts pushes an ordered packet out of the window that `x` has had
acknowledged and that has not been put out. -/
def Evicts (x : Endpoint S R Buf) (y : Endpoint R S Buf) (d : Datagram D) : Prop :=
  d.channel = .reliable true ∧
    (∃ b ∈ x.orderedLog[d.index]?, y.com.accepts b.packet = true) ∧
    ∃ k ∈ x.orderedAcked, y.released ≤ k ∧ k + 32 ≤ d.index

/-- Ordered packet `k` is before the head, and its messages have been put out after those of the
packets before it. -/
def PutOut (x : Endpoint S R Buf) (y : Endpoint R S Buf) (k : Nat) : Prop :=
  k < y.released ∧
    ((x.orderedLog.take (k + 1)).flatMap fun b => b.packet.messages) <+: y.everPutOrdered

/-- Ordered packet `k` has been put out, or it is stored under its own number with the messages
it was built with. -/
def Kept (x : Endpoint S R Buf) (y : Endpoint R S Buf) (k : Nat) : Prop :=
  ∃ b, x.orderedLog[k]? = some b ∧
    (PutOut x y k ∨ ∃ p, y.com.reliableOrderedReceivedPackets.get (seq k) = some p ∧
      p.messages = b.packet.messages)

/-- Every acknowledged packet is put out or in the window; packets that left the window without
being put out are not pending any more. -/
structure Lossless (x : Endpoint S R Buf) (r : Receiver S) : Prop where
  acked : ∀ k ∈ x.orderedAcked, k < r.released ∨ top r.orderedAccepted ≤ k + 32
  lost : ∀ k ∈ r.orderedAccepted, r.released ≤ k → k + 32 < top r.orderedAccepted →
    k ∉ x.pending true

section Lossless

variable {link : Link S Buf D} {x x' : Endpoint S R Buf} {r r' : Receiver S}
  {flight : List (Datagram D)}

theorem Lossless.sender (h : Lossless x r) (hs : SenderStep r.accepted x x')
    (hc : Cross link x r flight) : Lossless x' r where
  acked k hk := by
    rcases hs.acked k hk with hk | ⟨ha, hk⟩
    · exact h.acked k hk
    · -- what is acknowledged now was pending, so it cannot have been lost before
      by_contra hcon
      have hlt : k < (x.log true).length := hc.accepted_lt true k ha
      exact h.lost k ha (by omega) (by omega) (hk.resolve_right (by omega))
  lost k hk h1 h2 hp := by
    have hlt : k < (x.log true).length := hc.accepted_lt true k hk
    rcases hs.pending true k hp with hp | hp
    · exact h.lost k hk h1 h2 hp
    · omega

/-- The receiving half takes packet `i` of the ordered channel, with everything acknowledged
still in reach. -/
theorem Lossless.receiver {channel : Channel} {i : Nat} (h : Lossless x r)
    (hs : ReceiverStep channel i r r') (hi : channel = .reliable true → i < (x.log true).length)
    (hkeep : r'.orderedAccepted ≠ r.orderedAccepted →
      ∀ k ∈ x.orderedAcked, r.released ≤ k → i < k + 32) : Lossless x r' := by
  have hrel := hs.released
  rcases hs.accepted true with e | ⟨hch, hnew, hle, e⟩
  · have e : r'.orderedAccepted = r.orderedAccepted := e
    refine ⟨fun k hk => ?_, fun k hk h1 h2 => ?_⟩
    · rw [e]
      exact (h.acked k hk).imp_left (Nat.lt_of_lt_of_le · hrel)
    · rw [e] at hk h2
      exact h.lost k hk (by omega) h2
  · have e : r'.orderedAccepted = r.orderedAccepted ++ [i] := e
    have htop := top_append r.orderedAccepted i
    have hi := hi hch
    refine ⟨fun k hk => ?_, fun k hk h1 h2 hp => ?_⟩
    · have := hkeep (by rw [e]; simp) k hk
      rw [e, htop]
      rcases h.acked k hk with hk | hk <;> omega
    · rw [e] at hk h2
      rcases List.mem_append.mp hk with hk | hk
      · have hn : (x.log true).length ≤ k + 32 := (mem_pendingIn.mp hp).2.1
        exact h.lost k hk (by omega) (by omega) hp
      · have := List.mem_singleton.mp hk
        have hle : top r.orderedAccepted ≤ i + 32 := hle
        omega

theorem Lossless.kept {y : Endpoint R S Buf} (h : Lossless x y.receiver)
    (hc : Cross link x y.receiver flight) {k : Nat} (hk : k ∈ x.orderedAcked) : Kept x y k := by
  have hacc : k ∈ y.orderedAccepted := hc.acked k hk
  have hlt : k < x.orderedLog.length := hc.accepted_lt true k hacc
  refine ⟨x.orderedLog[k], List.getElem?_eq_getElem hlt, ?_⟩
  by_cases hput : k < y.released
  · have hput' : y.everPutOrdered =
        (x.orderedLog.take y.released).flatMap fun b => b.packet.messages := hc.ordered.put
    refine .inl ⟨hput, ?_⟩
    rw [hput']
    exact (List.take_prefix_take_left hput).flatMap _
  · have hnear := (h.acked k hk).resolve_left hput
    obtain ⟨p, hp, -, hmsg⟩ := hc.ordered.stored k hacc hnear
    obtain ⟨b, hb, e⟩ := hmsg (Nat.le_of_not_lt hput)
    have hb : x.orderedLog[k]? = some b := hb
    rw [List.getElem?_eq_getElem hlt] at hb
    exact .inr ⟨p, hp, by rw [e, Option.some.inj hb]⟩

end Lossless

namespace System

variable [ByteRepr S] [ByteRepr R] {la : Link S Buf D} {lb : Link R Buf D} {s t : System S R Buf D}

/-- The steps of the code, as long as no acceptance pushes an acknowledged packet out. -/
def Keeps (s : System S R Buf D) : Action S R → Prop
  | .atB (.deliver place _) => ∀ d, s.ab[place]? = some d → ¬ Evicts s.a s.b d
  | act => act.ofCode = true

end System

end MiniUdp
