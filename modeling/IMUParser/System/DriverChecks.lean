import IMUParser.System.LoopTester

/-!
# The checks of the driver

`IMU_Driver/LoopTester.py` unpacks the datagram that it receives and asserts that its fields equal
those of the frame that it has sent, first the count, then the gyro rates. The rates are compared as
numbers: a NaN is not equal to itself, and zeros are equal whatever their signs.

In every state of the loop test in which a datagram is under way, it passes these checks unless a
gyro rate of the packet sent is a NaN, and then the first assertion on such a rate fails
(`driver_checks`): the datagram can always be unpacked, and no other assertion ever fails. The rates
that `createFakePacket` draws are numbers.

Nothing catches the exception of an assertion that fails: the driver ends, and there is no next
frame. `CheckedLoopStep` is the loop test with this end.

## Main definitions

* `isNaN`, `floatEq`: the comparison of unpacked floats.
* `DriverOutcome`, `driverCheck`.
* `nanField?`: the first gyro rate of a packet that is a NaN.
* `DriverRuns`, `CheckedLoopStep`.

## Main results

* `driverCheck_datagram`, `driver_checks`.
* `reachable_of_checkedLoopStep`, `LoopInvariant.driverRuns_iff`, `CheckedLoopInvariant.step`.
-/

namespace IMUParser

open Transition

/-! ### Floats -/

/-- The exponent has all bits set and the fraction is not zero. -/
def isNaN (f : FloatBits) : Bool := f.toNat / 2 ^ 23 % 2 ^ 8 == 255 && f.toNat % 2 ^ 23 != 0

/-- All bits but the sign are zero. -/
def isZero (f : FloatBits) : Bool := f.toNat % 2 ^ 31 == 0

/-- The comparison `f == g` of floats unpacked from these bits. -/
def floatEq (f g : FloatBits) : Bool := !isNaN f && !isNaN g && (f == g || isZero f && isZero g)

theorem floatEq_self (f : FloatBits) : floatEq f f = !isNaN f := by simp [floatEq]

/-! ### The checks -/

/-- The fields of a packet, in the order of the assertions. -/
inductive PacketField
  | packetCount
  | xGyroRate
  | yGyroRate
  | zGyroRate
  deriving DecidableEq, Repr

/-- How the checks end: they pass, an assertion fails, or the exception `Couldnt unpack data` is
raised. -/
inductive DriverOutcome
  | passed
  | assertionError (field : PacketField)
  | unpackError
  deriving DecidableEq, Repr

/-- The checks of the bytes `data` received against the frame `packetBytes` sent. The values
expected are unpacked from the frame with `'>I'` and `'>f'`; at most 1024 bytes are received. -/
def driverCheck (o : ByteOrder) (packetBytes data : List UInt8) : DriverOutcome :=
  let expected := packetAt packetBytes 0
  match unpackNative o (data.take 1024) with
  | none => .unpackError
  | some packet =>
    if packet.count ≠ expected.count then .assertionError .packetCount
    else if !floatEq packet.x expected.x then .assertionError .xGyroRate
    else if !floatEq packet.y expected.y then .assertionError .yGyroRate
    else if !floatEq packet.z expected.z then .assertionError .zGyroRate
    else .passed

/-- The first gyro rate that is a NaN. -/
def nanField? (P : Packet) : Option PacketField :=
  if isNaN P.x then some .xGyroRate
  else if isNaN P.y then some .yGyroRate
  else if isNaN P.z then some .zGyroRate
  else none

/-- The datagram of a packet, checked against the frame of the packet. -/
theorem driverCheck_datagram (o : ByteOrder) (P : Packet) :
    driverCheck o P.frame (datagram o P) = (nanField? P).elim .passed .assertionError := by
  have hexpected : packetAt P.frame 0 = P := by simpa using packetAt_frame (m := []) P
  have hreceived : unpackNative o ((datagram o P).take 1024) = some P := by
    rw [List.take_of_length_le (by simp [datagram]), datagram, unpackNative_image,
      Packet.toPacket_toParsed]
  simp only [driverCheck, hexpected, hreceived, floatEq_self, Bool.not_not, nanField?, ne_eq,
    not_true_eq_false, if_false]
  split_ifs <;> rfl

/-- **The checks of the driver.** In every state that the loop test can reach: a datagram that has
arrived for the packet sent passes the checks of the driver, unless a gyro rate of the packet is a
NaN; then the assertion on the first such rate fails. -/
theorem driver_checks (o : ByteOrder) (packets : Stream'.Seq Packet) (s : LoopState)
    (h : Reachable (LoopStep o packets) .initial s) (P : Packet)
    (hsent : packets.get? s.count = some P) (data : List UInt8) (hdata : data ∈ s.datagrams) :
    driverCheck o (createFakePacket o P.count P.x P.y P.z) data =
      (nanField? P).elim .passed .assertionError := by
  have hinv := h.invariant (I := LoopInvariant o packets) loopInvariant_initial
    fun _ _ _ hs hstep => hs.step hstep
  cases hinv.round with
  | idle _ hd => rw [hd] at hdata; cases hdata
  | underWay _ _ _ hd => rw [hd] at hdata; cases hdata
  | answered Q _ hnext hd =>
    obtain rfl := Option.some.inj (hsent.symm.trans hnext)
    rw [hd, List.mem_singleton] at hdata
    rw [hdata, createFakePacket_eq_frame]
    exact driverCheck_datagram o P

/-- The second gyro rate is a NaN, and the third one a negative zero. -/
theorem driver_checks_nan :
    let P : Packet := ⟨1, 2, 0x7FC00000, 0x80000000⟩
    ∃ s, Reachable (LoopStep .little (.ofList [P])) .initial s ∧
      s.datagrams = [datagram .little P] ∧ nanField? P = some .yGyroRate ∧
      driverCheck .little (createFakePacket .little P.count P.x P.y P.z) (datagram .little P) =
        (nanField? P).elim .passed .assertionError := by
  intro P
  have hstart : Reachable (LoopStep .little (.ofList [P])) .initial .initial := .start
  have hsend := hstart.next (.send (P := P) rfl rfl)
  have hread := hsend.next (.read (r := .data P.frame (by decide) (by decide)) rfl
    (show _ = P.frame ++ [] by decide))
  exact ⟨_, hread, by decide +kernel, by decide +kernel,
    driver_checks .little _ _ hread P (by decide +kernel) _ (by decide +kernel)⟩

/-! ### The end of the driver -/

/-- The driver has not ended: the datagrams that it has received have passed its checks. -/
def DriverRuns (o : ByteOrder) (packets : Stream'.Seq Packet) (s : LoopState) : Prop :=
  ∀ n data P, s.received[n]? = some data → packets.get? n = some P →
    driverCheck o (createFakePacket o P.count P.x P.y P.z) data = .passed

/-- The condition on the steps: those of the driver are made by one that has not ended. -/
def DriverMakes (o : ByteOrder) (packets : Stream'.Seq Packet) (s : LoopState) : LoopLabel → Prop
  | .send => DriverRuns o packets s
  | .receive => DriverRuns o packets s
  | .read _ => True
  | .wake => True

/-- The steps of the system with a driver that ends when a check fails. The parser process does not
know of this and goes on; `count` is then one ahead of that of the script, and nobody reads it. -/
def CheckedLoopStep (o : ByteOrder) (packets : Stream'.Seq Packet) :
    LoopState → LoopLabel → LoopState → Prop :=
  restrict (LoopStep o packets) (DriverMakes o packets)

variable {o : ByteOrder} {packets : Stream'.Seq Packet} {s s' : LoopState} {l : LoopLabel}

/-- The loop test reaches no further states when its driver can end. -/
theorem reachable_of_checkedLoopStep (h : Reachable (CheckedLoopStep o packets) .initial s) :
    Reachable (LoopStep o packets) .initial s :=
  h.of_restrict

theorem DriverRuns.driverMakes (h : DriverRuns o packets s) (l : LoopLabel) :
    DriverMakes o packets s l := by
  cases l with
  | send => exact h
  | receive => exact h
  | read => trivial
  | wake => trivial

/-- The checks of a packet sent pass if all its gyro rates are numbers. -/
theorem driverCheck_eq_passed_iff (o : ByteOrder) (P : Packet) :
    driverCheck o (createFakePacket o P.count P.x P.y P.z) (datagram o P) = .passed ↔
      nanField? P = none := by
  rw [createFakePacket_eq_frame, driverCheck_datagram]
  cases nanField? P <;> simp

/-- The driver has not ended as long as the gyro rates of all packets answered are numbers. -/
theorem LoopInvariant.driverRuns_iff (h : LoopInvariant o packets s) :
    DriverRuns o packets s ↔ ∀ k < s.count, ∀ Q, packets.get? k = some Q → nanField? Q = none := by
  have hreceived (k : ℕ) (hk : k < s.count) (Q : Packet) (hQ : packets.get? k = some Q) :
      s.received[k]? = some (datagram o Q) := by
    rw [h.received, List.getElem?_map, Stream'.Seq.getElem?_take, if_pos hk, hQ, Option.map_some]
  refine ⟨fun hruns k hk Q hQ => ?_, fun hnumbers k data Q hdata hQ => ?_⟩
  · exact (driverCheck_eq_passed_iff o Q).mp (hruns k _ Q (hreceived k hk Q hQ) hQ)
  · obtain ⟨hk, -⟩ := List.getElem?_eq_some_iff.mp hdata
    rw [h.count] at hk
    obtain rfl := Option.some.inj (hdata.symm.trans (hreceived k hk Q hQ))
    exact (driverCheck_eq_passed_iff o Q).mpr (hnumbers k hk Q hQ)

/-- The invariant of the system with these checks: of the packets answered, only the last one can
have a gyro rate that is a NaN. -/
structure CheckedLoopInvariant (o : ByteOrder) (packets : Stream'.Seq Packet) (s : LoopState) :
    Prop where
  loop : LoopInvariant o packets s
  passed : ∀ k, k + 1 < s.count → ∀ Q, packets.get? k = some Q → nanField? Q = none

theorem checkedLoopInvariant_initial : CheckedLoopInvariant o packets .initial :=
  ⟨loopInvariant_initial, fun k hk => absurd hk (Nat.not_lt_zero (k + 1))⟩

/-- **The step lemma.** The driver receives only when all packets answered before have passed. -/
theorem CheckedLoopInvariant.step (h : CheckedLoopInvariant o packets s)
    (hstep : CheckedLoopStep o packets s l s') : CheckedLoopInvariant o packets s' := by
  obtain ⟨hcond, hstep⟩ := hstep
  refine ⟨h.loop.step hstep, ?_⟩
  cases hstep with
  | send => exact h.passed
  | receive => exact fun k hk => h.loop.driverRuns_iff.mp hcond k (Nat.succ_lt_succ_iff.mp hk)
  | read => simpa only [LoopState.iterate_count] using h.passed
  | wake => exact h.passed

end IMUParser
