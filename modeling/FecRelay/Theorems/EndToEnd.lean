import FecRelay.Base.Run
import FecRelay.Codec.CheckedRegion
import FecRelay.Theorems.CauchyRows
import FecRelay.Theorems.Collected
import FecRelay.Theorems.Encoded

/-!
# What the decoder recovers is what the encoder was given

An encoder and a decoder exchange packets, recovery packets and acks, which are lost, repeated
and reordered. Over any run the window of the decoder has the packets that the encoder was
given, and any attempt to decode that the solver solves recovers the lost packets with their
lengths and their bytes, whatever sums the two sides keep, roll, plug, clip and give up on the
way. The decoder may try any rows that it can store and any columns that are lost. As many
parity and Cauchy rows as packets are lost are always solved.
-/

namespace FecRelay

open FecRelay.Base

/-- What `AddRecovery` makes of a recovery packet that protects packets of the window. It is
stored, or added at once if it has one packet. -/
def DecoderPacketWindow.store (w : DecoderPacketWindow) (bytes : Bytes) : Option RecoveryPacket :=
  match deserializeFooterRecoveryMetadata bytes with
  | none => none
  | some (metadata, row, footerSize) =>
      let elementEnd := w.columnToElement (metadata.columnStart + metadata.sumCount)
      if Cyclic.backwards siamesePacketNumCount elementEnd ∨ elementEnd < metadata.ldpcCount ∨
          w.count < elementEnd then none
      else some {
        metadata := metadata
        row := row
        elementStart := elementEnd - metadata.ldpcCount
        elementEnd := elementEnd
        buffer := bytes.take (bytes.length - footerSize) }

/-- An encoder, and a decoder of its packets. -/
structure Link where
  sender : Sender := {}
  collector : Collector := {}

namespace Link

/-- The window of the decoder -/
def window (x : Link) : SumWindow := x.collector.window

/-- A packet by its number -/
def packetOf (added : List Bytes) (k : Nat) : Bytes := added.getD k []

/-- The decoder makes a row of a recovery packet that was sent. The count of lost packets is set
when the row is used. -/
def Stores (x : Link) (y : SentRecovery) (r : RecoveryPacket) : Prop :=
  y ∈ x.sender.sent ∧ ∃ r', x.window.store y.bytes = some r' ∧
    r = { r' with lostCount := r.lostCount }

/-- What an attempt to decode is made on: columns that are lost, and rows that were sent and
that cover no other lost columns. -/
structure Tries (x : Link) (columns : List ColumnInfo) (rows : List RecoveryPacket) : Prop where
  some : columns ≠ []
  lost : ∀ c ∈ columns, c.column = x.window.elementToColumn c.element ∧
    c.element < x.window.count ∧ x.window.has c.element = false
  stored : ∀ r ∈ rows, ∃ y, x.Stores y r
  covered : ∀ r ∈ rows, ∀ e, r.elementStart ≤ e → e < r.elementEnd →
    x.window.has e = false → e ∈ columns.map (·.element)

/-- Parity and Cauchy rows, at least as many as there are columns, all different and each over
all the columns, which are what it counts as lost. -/
structure Suffices (columns : List ColumnInfo) (rows : List RecoveryPacket) : Prop where
  nodup : (columns.map (·.element)).Nodup
  cauchy : ∀ r ∈ rows, r.IsCauchy
  different : (rows.map (·.row)).Nodup
  spans : ∀ r ∈ rows, ∀ c ∈ columns, r.elementStart ≤ c.element ∧ c.element < r.elementEnd
  lostCount : ∀ r ∈ rows, r.lostCount = columns.length
  enough : columns.length ≤ rows.length

/-- An attempt to decode. The solver succeeds, after any attempts that failed, and the sums of
every row that it uses start in the window or go on. -/
structure Attempt (x : Link) (columns : List ColumnInfo) (rows : List RecoveryPacket)
    (t : RecoveryMatrixState) : Prop extends Tries x columns rows where
  solves : x.collector.Solves columns rows t

inductive Event
  | add (data : Bytes)
  | ack (expected : Nat) (ranges : Bytes)
  | encode
  | original (num : Nat)
  | single
  | covers (top : Nat)
  | decode (columns : List ColumnInfo) (nextCheckStart : Nat)
  | removed (firstKeptSubwindow : Nat)

/-- The stream is shorter than half a period of the numbers. An ack names packets that the
decoder has. What the window is shortened by is not covered by a row that the decoder goes by,
except for packets that the encoder knows to be received. -/
inductive Step (x : Link) : Event → Link → Prop
  | add {data : Bytes} {s : Sender} : data.length < 2 ^ 32 →
      x.sender.added.length < siamesePacketNumCount / 2 → x.sender.Step (.add data) s →
      Step x (.add data) { x with sender := s }
  | ack {expected : Nat} {ranges : Bytes} {s : Sender} :
      (∀ k < expected, k ∈ x.collector.got) → x.sender.Step (.ack expected ranges) s →
      Step x (.ack expected ranges) { x with sender := s }
  | encode {s : Sender} : x.sender.Step .encode s → Step x .encode { x with sender := s }
  | original {num : Nat} : num < x.sender.added.length →
      x.collector.base < num + siamesePacketNumCount / 2 →
      Step x (.original num) { x with
        collector := { x.collector with
          window := { x.window with
            toDecoderPacketWindow := (x.window.toDecoderPacketWindow.addOriginal
              (num % siamesePacketNumCount) (packetOf x.sender.added num)).2 }
          got := insert num x.collector.got } }
  | single {y : SentRecovery} {r : RecoveryPacket} {w : SumWindow} : x.Stores y r →
      r.metadata.sumCount = 1 → x.window.addSingleRecovery r = some w →
      Step x .single { x with
        collector := { x.collector with
          window := w
          got := insert (x.collector.base + x.window.columnToElement r.metadata.columnStart)
            x.collector.got } }
  | covers {top : Nat} : top ≤ x.sender.added.length →
      Step x (.covers top) { x with
        collector := { x.collector with
          window := { x.window with
            toDecoderPacketWindow :=
              x.window.toDecoderPacketWindow.growWindow (top - x.collector.base) } } }
  | decode {columns : List ColumnInfo} {rows : List RecoveryPacket} {t : RecoveryMatrixState}
      {nextCheckStart : Nat} {packets : List (Nat × OriginalPacket)} {w : SumWindow} :
      x.Attempt columns rows t → x.window.nextExpectedElement < x.window.count →
      (∀ e < nextCheckStart, x.window.has e = false → e ∈ columns.map (·.element)) →
      x.window.solve t rows = some (packets, w) →
      Step x (.decode columns nextCheckStart) { x with
        collector := { x.collector with
          window := w.putBack columns packets nextCheckStart
          got := x.collector.got ∪ (packets.map fun y => x.collector.base + y.1).toFinset } }
  | removed {firstKeptSubwindow : Nat} {target : Option (RecoveryMetadata × Nat)}
      {w : SumWindow} : 0 < firstKeptSubwindow →
      firstKeptSubwindow * subwindowSize ≤ x.window.nextExpectedElement →
      (∀ y ∈ target, ∃ z r, x.Stores z r ∧ y.1 = r.metadata ∧
        firstKeptSubwindow * subwindowSize ≤ r.elementStart ∧
        (x.collector.base ≤ y.1.columnStart ∨ x.window.sumColumnCount ≠ 0 ∧
          ¬x.window.Restarts y.1.columnStart y.1.sumCount)) →
      x.window.removeElements target firstKeptSubwindow = some w →
      Step x (.removed firstKeptSubwindow) { x with
        collector := { x.collector with
          window := w
          base := x.collector.base + firstKeptSubwindow * subwindowSize } }

variable {x x' : Link} {added : List Bytes}

/-- What holds of both sides and of what went between them, where the packets that are added are
the given ones. -/
structure Sound (added : List Bytes) (x : Link) : Prop where
  keeps : x.sender.Keeps added
  holds : x.collector.HoldsSent (packetOf added) x.sender.added.length
  later : x.sender.added <+: added
  sendable : ∀ data ∈ x.sender.added, Sendable data
  acked : ∀ k < x.sender.acked, k ∈ x.collector.got
  sent : ∀ y ∈ x.sender.sent, y.added ≤ x.sender.added.length ∧ y.acked ≤ x.sender.acked

theorem sound_start (added : List Bytes) : ({} : Link).Sound added where
  keeps := Sender.keeps_start added
  holds := Collector.holdsSent_start _
  later := List.nil_prefix
  sendable := by simp
  acked k hk := absurd hk (Nat.not_lt_zero k)
  sent := by simp

theorem packetOf_later {added' : List Bytes} (h : added' <+: added) {k : Nat}
    (hk : k < added'.length) : packetOf added' k = packetOf added k := by
  obtain ⟨rest, rfl⟩ := h
  simp [packetOf, List.getElem?_append_left hk]

theorem Sound.sendable_packetOf (h : x.Sound added) {k : Nat} (hk : k < x.sender.added.length) :
    Sendable (packetOf added k) := by
  rw [← packetOf_later h.later hk, packetOf, List.getD_eq_getElem _ _ hk]
  exact h.sendable _ (List.getElem_mem hk)

/-! ## Rows that were sent -/

/-- **A stored row** covers the packets that it was made of, by the elements of the window. -/
theorem Sound.stored (h : x.Sound added) {y : SentRecovery} {r : RecoveryPacket}
    (hstores : x.Stores y r) : ∃ q, x.window.Stored (streamed (packetOf added)) x.collector.got
      x.collector.base y.added y.acked q r := by
  obtain ⟨hy, r', hstore, hr⟩ := hstores
  obtain ⟨z, q, hread, hcombines⟩ := h.keeps.sent y hy
  obtain ⟨hadded, hacked⟩ := h.sent y hy
  have hle := hcombines.le
  have hlt := hcombines.lt
  have hshort := h.holds.short
  have hbase := h.holds.near
  have hcolumn := h.holds.shows.columnStart
  unfold readRecovery at hread
  unfold DecoderPacketWindow.store at hstore
  generalize deserializeFooterRecoveryMetadata y.bytes = footer at hread hstore
  rcases footer with _ | ⟨metadata, row, footerSize⟩
  · cases hread
  dsimp only at hread hstore
  have hz := Option.some.inj hread
  have hmetadata : metadata = ⟨y.added - q, y.added - y.acked, q % siamesePacketNumCount⟩ :=
    (congrArg RecoveryPacket.metadata hz).trans hcombines.metadata
  have hcolumnEnd : q % siamesePacketNumCount + (y.added - q) = y.added := by
    rw [Nat.mod_eq_of_lt (by unfold siamesePacketNumCount at *; omega)]
    omega
  rw [hmetadata] at hstore
  dsimp only at hstore
  rw [hcolumnEnd] at hstore
  have helement : x.window.columnToElement y.added =
      Cyclic.distance siamesePacketNumCount (y.added % siamesePacketNumCount)
        (x.collector.base % siamesePacketNumCount) := by
    rw [DecoderPacketWindow.columnToElement, window, hcolumn,
      Nat.mod_eq_of_lt (by unfold siamesePacketNumCount at *; omega),
      Nat.mod_eq_of_lt (by unfold siamesePacketNumCount at *; omega)]
  split at hstore
  · cases hstore
  next hfits =>
  have hge : x.collector.base ≤ y.added := by
    by_contra hbehind
    have hdistance := Cyclic.distance_of_behind (p := siamesePacketNumCount)
      (not_le.mp hbehind) (by unfold siamesePacketNumCount at *; omega)
    refine hfits (.inl ?_)
    rw [helement, hdistance, Cyclic.backwards, decide_eq_true_iff]
    unfold siamesePacketNumCount at *
    omega
  rw [Cyclic.distance_of_near hge (by unfold siamesePacketNumCount at *; omega)] at helement
  rw [helement] at hstore hfits
  have hr' := Option.some.inj hstore
  subst hr'
  have hsent : r.sent = z := by
    rw [hr, RecoveryPacket.sent]
    dsimp only
    have hbody := congrArg RecoveryPacket.buffer hz
    have hrow := congrArg RecoveryPacket.row hz
    have hfooter := congrArg RecoveryPacket.metadata hz
    rw [hmetadata] at hfooter
    dsimp only at hbody hrow hfooter
    rw [hfooter, hbody, hrow]
    rfl
  refine ⟨q, ⟨?_, ?_, ?_, ?_⟩, ?_, fun k hk => h.acked k (hk.trans_le hacked)⟩
  · omega
  · rw [hr]
    dsimp only
    omega
  · rw [hr]
  · rw [hsent]
    exact hcombines
  · show y.added ≤ x.collector.base + x.window.count
    omega

/-- What the decoder tries is what it may ask for. -/
theorem Sound.asks (h : x.Sound added) {columns : List ColumnInfo} {rows : List RecoveryPacket}
    (htries : x.Tries columns rows) : x.collector.Asks (packetOf added) columns rows where
  some := htries.some
  lost c hc := by
    obtain ⟨hcolumn, hcount, hlost⟩ := htries.lost c hc
    have hinside := h.holds.inside
    have hcount : c.element < x.collector.window.count := hcount
    refine ⟨?_, hcount, fun hgot => ?_, h.sendable_packetOf (by omega)⟩
    · rw [hcolumn, DecoderPacketWindow.elementToColumn, window, h.holds.shows.columnStart,
        Nat.add_comm]
    · have hhas := (h.holds.has_iff c.element).mpr hgot
      rw [show x.collector.window.has c.element = false from hlost] at hhas
      cases hhas
  stored r hr := by
    obtain ⟨y, hstores⟩ := htries.stored r hr
    obtain ⟨q, hstored⟩ := h.stored hstores
    exact ⟨y.added, y.acked, q, hstored⟩
  covered r hr e hstart hend hgot := by
    refine htries.covered r hr e hstart hend (eq_false_of_ne_true fun hhas => hgot ?_)
    exact (h.holds.has_iff e).mp hhas

/-- What is lost was not acknowledged before a row was sent. -/
theorem Sound.acked_le (h : x.Sound added) {y : SentRecovery} {r : RecoveryPacket}
    (hstores : x.Stores y r) {e : Nat} (hlost : x.window.has e = false) :
    y.acked ≤ x.collector.base + e := by
  obtain ⟨q, hstored⟩ := h.stored hstores
  by_contra hacked
  have hhas := (h.holds.has_iff e).mpr (hstored.acked _ (not_le.mp hacked))
  rw [show x.collector.window.has e = false from hlost] at hhas
  cases hhas

/-- What a row that was sent says of a lost packet. It covers it if the packet was added, and the
packet has no part in it otherwise. -/
theorem Sound.covers_iff (h : x.Sound added) {y : SentRecovery} {r : RecoveryPacket}
    (hstores : x.Stores y r) {c : ColumnInfo}
    (hcolumn : c.column = x.window.elementToColumn c.element) (hcount : c.element < x.window.count)
    (hlost : x.window.has c.element = false) :
    (r.Covers c.column ↔ c.element < r.elementEnd) ∧
      (r.elementEnd ≤ c.element → r.coefficient c = 0) := by
  obtain ⟨q, hstored⟩ := h.stored hstores
  have hshort := h.holds.short
  have hinside : x.collector.base + x.window.count ≤ _ := h.holds.inside
  have hnear : y.added ≤ x.collector.base + x.window.count := hstored.inside
  have hbase := hstored.arrived.base_le
  have hend := hstored.arrived.elementEnd
  have hle := hstored.arrived.combines.le
  have hlt := hstored.arrived.combines.lt
  have hmetadata : r.metadata = ⟨y.added - q, y.added - y.acked, q % siamesePacketNumCount⟩ :=
    hstored.arrived.combines.metadata
  have hge := h.acked_le hstores hlost
  have hnumber : c.column = (x.collector.base + c.element) % siamesePacketNumCount := by
    rw [hcolumn, DecoderPacketWindow.elementToColumn, window, h.holds.shows.columnStart,
      Nat.add_comm]
  refine ⟨⟨fun hcovers => ?_, fun hbefore => ?_⟩, fun hafter => ?_⟩
  · by_contra hafter
    rw [hnumber] at hcovers
    exact hstored.arrived.not_covers (.inr (by omega)) (by omega) (by omega) hcovers
  · rw [hnumber]
    exact covers_numbered (n := y.added) (q := q) (by omega) (by omega)
      hstored.arrived.combines.near (congrArg (·.sumCount) hmetadata)
      (congrArg (·.columnStart) hmetadata)
  · have heq : c = ⟨c.element, (x.collector.base + c.element) % siamesePacketNumCount⟩ := by
      rw [← hnumber]
    rw [heq, hstored.arrived.coefficient]
    exact hstored.arrived.coefficientOf_eq_zero (.inr (by omega)) (by omega) (by omega)

/-! ## What an attempt is set up from -/

theorem of_mem_lostColumns {a b : Nat} (hlast : b ≤ x.window.count) {c : ColumnInfo}
    (hc : c ∈ x.window.lostColumns a b) : c.column = x.window.elementToColumn c.element ∧
      c.element < x.window.count ∧ x.window.has c.element = false := by
  obtain ⟨hin, hlost, hcolumn⟩ := DecoderPacketWindow.mem_lostColumns.mp hc
  exact ⟨hcolumn, hin.2.trans_le hlast, hlost⟩

/-- A row that covers a lost packet covers those that are lost before it. -/
theorem Sound.ordered (h : x.Sound added) {y : SentRecovery} {r : RecoveryPacket}
    (hstores : x.Stores y r) {a b : Nat} (hlast : b ≤ x.window.count) :
    r.Ordered (x.window.lostColumns a b) := by
  refine (x.window.lostColumns_ascending a b).imp_of_mem fun {c c'} hc hc' hlt hcovers => ?_
  obtain ⟨hcolumn, hcount, hlost⟩ := of_mem_lostColumns hlast hc
  obtain ⟨hcolumn', hcount', hlost'⟩ := of_mem_lostColumns hlast hc'
  have hend := (h.covers_iff hstores hcolumn' hcount' hlost').1.mp hcovers
  exact (h.covers_iff hstores hcolumn hcount hlost).1.mpr (hlt.trans hend)

/-- Beyond what is lost up to its end a row is zero. -/
theorem Sound.zero_beyond (h : x.Sound added) {y : SentRecovery} {r : RecoveryPacket}
    (hstores : x.Stores y r) {a b e i : Nat} (hlast : b ≤ x.window.count) (hend : r.elementEnd ≤ e)
    (hge : a ≤ e) (hle : e ≤ b) (hi : i < (x.window.lostColumns a b).length)
    (hcount : x.window.lostIn a (e - a) ≤ i) :
    r.coefficient (x.window.lostColumns a b)[i] = 0 := by
  obtain ⟨hcolumn, hin, hlost⟩ := of_mem_lostColumns hlast (List.getElem_mem hi)
  exact (h.covers_iff hstores hcolumn hin hlost).2
    (hend.trans (DecoderPacketWindow.le_of_lostIn_le hge hle hi hcount))

/-- Nothing is lost before a row that was sent. -/
theorem Sound.elementStart_le (h : x.Sound added) {y : SentRecovery} {r : RecoveryPacket}
    (hstores : x.Stores y r) {e : Nat} (hlost : x.window.has e = false) : r.elementStart ≤ e := by
  obtain ⟨q, hstored⟩ := h.stored hstores
  have hacked := h.acked_le hstores hlost
  have helement := hstored.arrived.elementStart
  omega

/-- A row that was sent lies in the window. -/
theorem Sound.inside (h : x.Sound added) {y : SentRecovery} {r : RecoveryPacket}
    (hstores : x.Stores y r) : r.elementStart ≤ x.window.count ∧ r.elementEnd ≤ x.window.count := by
  obtain ⟨q, hstored⟩ := h.stored hstores
  have hinside : y.added ≤ x.collector.base + x.window.count := hstored.inside
  have hlt := hstored.arrived.combines.lt
  have helement := hstored.arrived.elementStart
  have hend := hstored.arrived.elementEnd
  omega

/-- **What `CheckRecoveryPossible` and `PopulateColumns` set up** from rows that were sent is
consistent, and may be tried if a packet is lost. -/
theorem Sound.checkedRegion (h : x.Sound added) {columns : List ColumnInfo}
    {rows stored : List RecoveryPacket} (hstores : ∀ r ∈ stored, ∃ y, x.Stores y r)
    (hregion : x.window.checkedRegion stored = (columns, rows)) :
    Consistent columns rows ∧ (columns ≠ [] → x.Tries columns rows) := by
  have hcoherent : x.window.toDecoderPacketWindow.Coherent :=
    h.holds.represents.wellFormed.toCoherent
  obtain ⟨a, b, rfl, hlast, hstart, hrows, hsorted⟩ := hcoherent.checkedRegion_spec
    (fun r hr => (hstores r hr).elim fun y hy => h.inside hy) hregion
  have hrow : ∀ r ∈ rows, ∃ y, x.Stores y r := by
    intro r hr
    obtain ⟨r₀, hr₀, e, rfl, -⟩ := hrows r hr
    obtain ⟨y, hy, r', hstore, heq⟩ := hstores r₀ hr₀
    exact ⟨y, hy, r', hstore, by rw [heq]⟩
  refine ⟨⟨?_, fun r hr => ?_, hsorted, fun r hr => ?_, fun i c hi hle => ?_⟩,
    fun hne => ⟨hne, fun c hc => of_mem_lostColumns hlast hc, hrow, fun r hr e _ hlt hlost => ?_⟩⟩
  · exact List.pairwise_map.mpr ((x.window.lostColumns_ascending a b).imp ne_of_lt)
  · obtain ⟨y, hy⟩ := hrow r hr
    exact h.ordered hy hlast
  · obtain ⟨r₀, -, e, rfl, -, hge, hle⟩ := hrows r hr
    rw [DecoderPacketWindow.length_lostColumns]
    exact x.window.lostIn_mono hge hle
  · obtain ⟨y, hy⟩ := hrow _ (List.getElem_mem hi)
    obtain ⟨r₀, -, e, heq, hend, hge, hle'⟩ := hrows _ (List.getElem_mem hi)
    rcases Nat.lt_or_ge c (x.window.lostColumns a b).length with hc | hc
    · rw [coefficients_eq hi hc]
      exact h.zero_beyond hy hlast (by rw [heq]; exact hend) hge hle' hc (by rwa [heq] at hle)
    · simp [coefficients, List.getElem?_eq_none hc]
  · obtain ⟨r₀, hr₀, e', rfl, hend, -, hle⟩ := hrows r hr
    have hge : a ≤ e := by
      rcases hstart with rfl | ⟨first, hfirst, rfl⟩
      · exact Nat.zero_le _
      · obtain ⟨y, hy⟩ := hstores first hfirst
        exact h.elementStart_le hy hlost
    exact List.mem_map.mpr ⟨⟨e, x.window.elementToColumn e⟩,
      DecoderPacketWindow.mem_lostColumns.mpr ⟨⟨hge, hlt.trans_le (hend.trans hle)⟩, hlost, rfl⟩,
      rfl⟩

/-! ## Rows that suffice -/

/-- Rows that suffice are rows of the Cauchy matrix and of ones. -/
theorem Sound.cauchyRows (h : x.Sound added) {columns : List ColumnInfo}
    {rows : List RecoveryPacket} (htries : x.Tries columns rows)
    (hsuffices : Suffices columns rows) : CauchyRows columns rows where
  cauchy r hr := by
    obtain ⟨y, hstores⟩ := htries.stored r hr
    obtain ⟨q, hstored⟩ := h.stored hstores
    exact ⟨hsuffices.cauchy r hr, (hstored.arrived.cauchy (hsuffices.cauchy r hr)).2⟩
  covers r hr c hc := by
    obtain ⟨y, hstores⟩ := htries.stored r hr
    obtain ⟨q, hstored⟩ := h.stored hstores
    obtain ⟨hcolumn, hcount⟩ := hstored.columnStart h.holds.shows
    obtain ⟨hstart, hend⟩ := hsuffices.spans r hr c hc
    have hq := (hstored.arrived.cauchy (hsuffices.cauchy r hr)).1
    have hbase := hstored.arrived.base_le
    have helement := hstored.arrived.elementStart
    have helementEnd := hstored.arrived.elementEnd
    have hshort := h.holds.short
    have hinside : x.collector.base + x.window.count ≤ _ := h.holds.inside
    have hnear : y.added ≤ x.collector.base + x.window.count := hstored.inside
    rw [(htries.lost c hc).1, DecoderPacketWindow.elementToColumn, window,
      h.holds.shows.columnStart, Nat.add_comm]
    refine covers_numbered (n := y.added) (q := q) (by omega) (by omega)
      hstored.arrived.combines.near hcount ?_
    rw [hcolumn, Nat.mod_eq_of_lt (by unfold siamesePacketNumCount at *; omega)]
  different := hsuffices.different

/-- **Rows that suffice are solved.** -/
theorem Sound.attempt (h : x.Sound added) {columns : List ColumnInfo}
    {rows : List RecoveryPacket} (htries : x.Tries columns rows)
    (hsuffices : Suffices columns rows) :
    ∃ t, ({} : RecoveryMatrixState).attempt columns rows = (true, t) ∧
      x.collector.Solves columns rows t := by
  have hnear := h.holds.near
  have hcolumns : columns.map (·.column) = columns.map fun c => x.collector.base + c.element := by
    refine List.map_congr_left fun c hc => ?_
    obtain ⟨hcolumn, hcount, -⟩ := htries.lost c hc
    have hcount : c.element < x.collector.window.count := hcount
    rw [hcolumn, DecoderPacketWindow.elementToColumn, window, h.holds.shows.columnStart,
      Nat.add_comm, Nat.mod_eq_of_lt (by unfold siamesePacketNumCount at *; omega)]
  have hrows := h.cauchyRows htries hsuffices
  have hdetermined := hrows.determined (List.Subset.refl rows) hsuffices.enough
    (fun c hc => by
      rw [(htries.lost c hc).1]
      exact Nat.mod_lt _ (by decide))
    (by
      rw [hcolumns]
      exact Collector.nodup_numbers _ hsuffices.nodup)
  have hextends : ({} : RecoveryMatrixState).Extends columns rows := by
    refine ⟨List.nil_prefix, List.nil_prefix, ⟨hsuffices.nodup, fun r hr => ?_, ?_, fun r hr =>
      (hsuffices.lostCount r hr).le, fun i c hi hle => ?_⟩, hsuffices.enough⟩
    · exact List.pairwise_of_forall_mem_list fun c hc _ _ _ => hrows.covers r hr c hc
    · refine List.pairwise_of_forall_mem_list fun r hr r' hr' => ?_
      rw [hsuffices.lostCount r hr, hsuffices.lostCount r' hr']
    · rw [hsuffices.lostCount _ (List.getElem_mem hi)] at hle
      have hnone : columns[c]? = none := List.getElem?_eq_none hle
      simp [coefficients, hnone]
  have htrue := (RecoveryMatrixState.succeeds_iff (.nil _) hextends).mpr hdetermined
  have hattempt : ({} : RecoveryMatrixState).attempt columns rows = (true, _) :=
    Prod.ext htrue rfl
  exact ⟨_, hattempt, ⟨_, _, .nil _, hextends, hattempt⟩,
    SumWindow.kept_of_cauchy hsuffices.cauchy _ _⟩

/-! ## Runs -/

theorem sendable_of_success {s : ByteEncoder} {data : Bytes} (hlength : data.length < 2 ^ 32)
    (hsuccess : (s.add data).1 = .success) : Sendable data := by
  unfold ByteEncoder.add at hsuccess
  split at hsuccess
  · cases hsuccess
  next hacceptable =>
    obtain ⟨hpos, hle⟩ := not_not.mp hacceptable
    rw [u32, Nat.mod_eq_of_lt hlength] at hpos hle
    exact ⟨List.length_pos_iff.mp hpos, hle⟩

theorem Sound.step (h : x.Sound added) {event : Event} (hstep : Step x event x')
    (hlater : x'.sender.added <+: added) : x'.Sound added := by
  cases hstep with
  | @add data s hlength hshort hadd =>
      have hkeeps := h.keeps.step hadd hlater
      cases hadd with
      | add hsuccess =>
          have hsendable := sendable_of_success hlength hsuccess
          refine ⟨hkeeps, h.holds.mono (by simp) (by simpa using hshort), hlater, ?_, h.acked, ?_⟩
          · intro d hd
            rcases List.mem_append.mp hd with hd | hd
            · exact h.sendable d hd
            · rwa [List.mem_singleton.mp hd]
          · intro y hy
            obtain ⟨hadded, hacked⟩ := h.sent y hy
            exact ⟨hadded.trans (by simp), hacked⟩
  | @ack expected ranges s hgot hack =>
      have hkeeps := h.keeps.step hack hlater
      cases hack with
      | ack hle hrecent =>
          refine ⟨hkeeps, h.holds, hlater, h.sendable, fun k hk => ?_, fun y hy => ?_⟩
          · rcases lt_max_iff.mp hk with hk | hk
            · exact h.acked k hk
            · exact hgot k hk
          · obtain ⟨hadded, hacked⟩ := h.sent y hy
            exact ⟨hadded, hacked.trans (le_max_left _ _)⟩
  | @encode s hencode =>
      have hkeeps := h.keeps.step hencode hlater
      cases hencode with
      | encode hdone =>
          refine ⟨hkeeps, h.holds, hlater, h.sendable, h.acked, fun y hy => ?_⟩
          rcases List.mem_append.mp hy with hy | hy
          · exact h.sent y hy
          · rw [List.mem_singleton.mp hy]
            exact ⟨le_rfl, le_rfl⟩
  | @original num hnum hbehind =>
      have hsendable := h.sendable_packetOf hnum
      have hshort := h.holds.short
      rw [packetOf_later h.later hnum]
      refine ⟨h.keeps, h.holds.original hnum hsendable ⟨hsendable.1, ?_, hbehind⟩, hlater,
        h.sendable, fun k hk => Finset.mem_insert_of_mem (h.acked k hk), h.sent⟩
      show num < x.collector.base + _
      omega
  | @single y r w hstores hone hdone =>
      obtain ⟨q, hstored⟩ := h.stored hstores
      have hlt := hstored.arrived.combines.lt
      have hadded := (h.sent y hstores.1).1
      obtain ⟨w', hdone', helement, hbase, hholds⟩ :=
        h.holds.single hstored hone (h.sendable_packetOf (by omega))
      obtain rfl : w' = w := Option.some.inj (hdone'.symm.trans hdone)
      have hnumber : x.collector.base + x.window.columnToElement r.metadata.columnStart =
          y.acked := by
        rw [window, helement, Nat.add_sub_cancel' hbase]
      rw [hnumber]
      exact ⟨h.keeps, hholds, hlater, h.sendable,
        fun k hk => Finset.mem_insert_of_mem (h.acked k hk), h.sent⟩
  | covers htop => exact ⟨h.keeps, h.holds.covers htop, hlater, h.sendable, h.acked, h.sent⟩
  | @decode columns rows t nextCheckStart packets w hattempt hlt hall hsolve =>
      have hasks := h.asks hattempt.toTries
      obtain ⟨w', hdone, hwindow, hsound⟩ := h.holds.solve hasks hattempt.solves
      obtain ⟨rfl, rfl⟩ := Prod.mk.inj (Option.some.inj (hdone.symm.trans hsolve))
      obtain ⟨_, _, _, hextends, _⟩ := hattempt.solves.attempt
      have hlost : ∀ e < nextCheckStart, x.collector.base + e ∉ x.collector.got →
          e ∈ columns.map (·.element) := fun e he hgot =>
        hall e he (eq_false_of_ne_true fun hhas => hgot ((h.holds.has_iff e).mp hhas))
      exact ⟨h.keeps, h.holds.putBack hasks hextends.consistent.nodup hlt hlost rfl hwindow hsound,
        hlater, h.sendable, fun k hk => Finset.mem_union_left _ (h.acked k hk), h.sent⟩
  | @removed firstKeptSubwindow target w hpos hexpected htarget hdone =>
      refine ⟨h.keeps, h.holds.removed hpos hexpected (fun y hy => ?_) hdone, hlater, h.sendable,
        h.acked, h.sent⟩
      obtain ⟨z, r, hstores, hmetadata, hstart, havailable⟩ := htarget y hy
      obtain ⟨q, hstored⟩ := h.stored hstores
      obtain ⟨hcolumn, hcount⟩ := hstored.columnStart h.holds.shows
      have hle := hstored.arrived.combines.le
      have hlt := hstored.arrived.combines.lt
      have helement := hstored.arrived.elementStart
      have hbase := hstored.arrived.base_le
      have hinside := hstored.inside
      have hinside : z.added ≤ x.collector.base + x.collector.window.count := hinside
      refine ⟨?_, ?_, havailable, fun k hk hlt' => hstored.acked k ?_⟩
      · rw [hmetadata, hcount]
        omega
      · rw [hmetadata, hcolumn, hcount]
        omega
      · omega

theorem added_mono {event : Event} (hstep : Step x event x') :
    x.sender.added <+: x'.sender.added := by
  cases hstep with
  | add _ _ hadd => exact Sender.added_mono hadd
  | ack _ hack => exact Sender.added_mono hack
  | encode hencode => exact Sender.added_mono hencode
  | original _ _ => exact List.prefix_rfl
  | single _ _ _ => exact List.prefix_rfl
  | covers _ => exact List.prefix_rfl
  | decode _ _ _ _ => exact List.prefix_rfl
  | removed _ _ _ _ => exact List.prefix_rfl

theorem sound_of_run {es : List Event} (h : Run Step {} es x) (hlater : x.sender.added <+: added) :
    x.Sound added := by
  generalize hstart : ({} : Link) = start at h
  induction h with
  | nil =>
      subst hstart
      exact sound_start added
  | snoc _ hstep ih => exact (ih ((added_mono hstep).trans hlater)).step hstep hlater

end Link

end FecRelay
