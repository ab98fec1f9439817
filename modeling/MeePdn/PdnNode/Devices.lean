import MeePdn.PdnNode.Joins

/-!
# Device statements

A member's devices are those its counted statements list, all of them together. A device adds itself
by a statement at the next version that lists them all, and an inviter adds the device of a member
that joins again by a statement at version 0 that lists it alone. A write replaces the entry at its
key by its author, so what a replaced statement alone listed is lost.

## Main definitions

* `LocalWrite` — the two kinds of writes, what they write, and the store after.
* `ListedAt`, `ListedBeside` — a device that the entry at a place lists, and one listed beside it.
* `LocalWrite.Keeps` — a write that replaces no statement a device rests on, and whose own counts.
* `Sound` — a sequence of writes, each accepted and one that keeps what is listed.

## Main results

* `keys_of_showsMember` — a member's identity key is known.
* `LocalWrite.listed_after` — what a write registers, and what was listed before it, is listed.
* `writes_keep_devices` — **local writes never lose a device**, along a whole sequence of them.
* `writes_lose_devices` — but a second statement at version 0 takes the place of the first.
-/

namespace MeePdn.Pods

open Settling Classical

variable {prims : Primitives} {orders : ℕ → HashOrder} {pod : PodId} {store : NamespaceId}
  {entries : List HeldEntry} {held : HeldEntry} {member : PdnId} {device : MemberDevice}
  {identity : PdnId} {request : JoinRequest} {acceptance : JoinAcceptance}

/-! ## The identity key of a member -/

/-- **A member's identity key is known**: the event that let the member in carries it. -/
lemma keys_of_showsMember
    (h : ShowsMember (MembershipView.new prims orders pod store entries) member) :
    ∃ key, (checksOf prims pod store entries).keys member = some key ∧
      pdnIdOf prims key = member := by
  rw [showsMember_iff] at h
  -- the first sequence at which the identity is a member
  let P (seq : ℕ) : Prop := ((candidatesOf prims pod store entries).finalState
    (finalSet prims pod store entries) member seq).member = true
  have hex : ∃ seq, P seq := ⟨_, h⟩
  have hle : Nat.find hex ≤ (Parsed.of entries).run member := Nat.find_min' hex h
  obtain ⟨before, hbefore⟩ : ∃ before, Nat.find hex = before + 1 := by
    refine Nat.exists_eq_succ_of_ne_zero fun hzero => ?_
    have hstart := Nat.find_spec hex
    rw [hzero] at hstart
    change (Candidates.finalState _ _ _ 0).member = true at hstart
    rw [Candidates.finalState, Log.final_zero] at hstart
    cases hstart
  have hafter := Nat.find_spec hex
  rw [hbefore] at hafter hle
  have hnot := Nat.find_min hex (m := before) (by omega)
  obtain ⟨event, hcounted, hpoint, hkind⟩ :=
    exists_entering hle (by simpa [P] using hnot) hafter
  obtain ⟨key, hcarried, hkey⟩ := carriedKey_of_entering hcounted.1 hkind
  rw [← (Prod.mk.inj hpoint).1]
  exact exists_key (mem_candidatesOf.mp hcounted.1).1 hcarried hkey

/-! ## One write -/

lemma mem_put {other : HeldEntry} (h : other ∈ entries)
    (hne : ¬ (other.key = held.key ∧ other.author = held.author)) : other ∈ put entries held :=
  List.mem_append_left _ (List.mem_filter.mpr ⟨h, decide_eq_true hne⟩)

/-- A member's statement that counts is the one an author holds at a key, and lists a device. -/
def ListedAt (prims : Primitives) (pod : PodId) (store : NamespaceId) (entries : List HeldEntry)
    (key : List UInt8) (author : AuthorId) (member : PdnId) (device : MemberDevice) : Prop :=
  ∃ statement ∈ (Parsed.of entries).statements,
    Alone.Lists prims pod entries (checksOf prims pod store entries).keys statement member device ∧
    ∃ held, entries[statement.entry]? = some held ∧ held.key = key ∧ held.author = author

/-- A device of a member is listed beside the one entry an author holds at a key: by another
statement that counts, or by the join statement of an event of the member's chain. -/
def ListedBeside (prims : Primitives) (pod : PodId) (store : NamespaceId)
    (entries : List HeldEntry) (key : List UInt8) (author : AuthorId) (member : PdnId)
    (device : MemberDevice) : Prop :=
  (∃ statement ∈ (Parsed.of entries).statements,
    Alone.Lists prims pod entries (checksOf prims pod store entries).keys statement member device ∧
    ∀ held, entries[statement.entry]? = some held → ¬ (held.key = key ∧ held.author = author)) ∨
  ∃ event ∈ (Parsed.of entries).events, event.subject = member ∧
    Alone.joiningDevice prims pod entries event = some device

lemma listed_at_or_beside (key : List UInt8) (author : AuthorId)
    (h : device ∈ (checksOf prims pod store entries).devices member) :
    ListedAt prims pod store entries key author member device ∨
      ListedBeside prims pod store entries key author member device := by
  rcases ((Alone.of_checked prims pod store entries).mem_devices _ _).mp h with
    ⟨statement, hstatement, hlists⟩ | hjoined
  · obtain ⟨held, hat, -⟩ := Parsed.mem_statements.mp hstatement
    by_cases hplace : held.key = key ∧ held.author = author
    · exact Or.inl ⟨statement, hstatement, hlists, held, hat, hplace⟩
    · refine Or.inr (Or.inl ⟨statement, hstatement, hlists, fun other hother => ?_⟩)
      rwa [← Option.some.inj (hat.symm.trans hother)]
  · exact Or.inr (Or.inr hjoined)

lemma statement_of_key {statement : Statement} {version : UInt64}
    (hat : Parsed.statementAt (held, statement.entry) = some statement)
    (hkey : held.key = (MembershipKey.devices member version).toBytes) :
    statement.member = member ∧ statement.version = version := by
  unfold Parsed.statementAt at hat
  simp only [hkey, MembershipKey.parse_toBytes, Option.some.injEq] at hat
  rw [← hat]
  exact ⟨rfl, rfl⟩

section Statement

variable {version : UInt64} (hkey : held.key = (MembershipKey.devices member version).toBytes)

include hkey

lemma holdsEvents_put : HoldsEvents entries (put entries held) := by
  intro event hevent
  obtain ⟨other, hat, hparse⟩ := Parsed.mem_events.mp hevent
  refine Moved.exists_of_mem hevent hat (mem_put (List.mem_of_getElem? hat) fun hsame => ?_)
  unfold Parsed.eventAt at hparse
  simp [hsame.1, hkey] at hparse

/-- **A device listed beside the written place stays listed.** -/
lemma ListedBeside.mem_devices_put (hinj : prims.Injective) {concerned : PdnId}
    (h : ListedBeside prims pod store entries held.key held.author concerned device) :
    device ∈ (checksOf prims pod store (put entries held)).devices concerned := by
  rw [(Alone.of_checked prims pod store _).mem_devices]
  rcases h with ⟨statement, hstatement, ⟨hmember, hcounted, devices, hlisted, hin⟩, hbeside⟩ |
    ⟨event, hevent, hsubject, hjoining⟩
  · obtain ⟨other, hat, -⟩ := Parsed.mem_statements.mp hstatement
    obtain ⟨i, hsame, hmem⟩ := exists_statement_of_mem hstatement hat
      (mem_put (List.mem_of_getElem? hat) (hbeside other hat))
    exact Or.inl ⟨_, hmem, hmember, counted_mono hinj (holdsEvents_put hkey) hsame hcounted,
      devices, hsame.listedDevices_eq.trans hlisted, hin⟩
  · obtain ⟨event', hevent', hmoved⟩ := holdsEvents_put hkey event hevent
    exact Or.inr ⟨event', hevent', hmoved.subject.trans hsubject,
      hmoved.joiningDevice_eq.trans hjoining⟩

/-- **A statement that verifies lists its devices**, once the member's key is known. -/
lemma listed_of_put (hinj : prims.Injective) {payload : DevicesPayload} {key : Bytes 32}
    (hread : held.payload = .read payload.encode)
    (hknown : (checksOf prims pod store entries).keys member = some key)
    (hverifies : devicesVerify prims key pod member version payload = true)
    (hdevice : device ∈ payload.devices) :
    device ∈ (checksOf prims pod store (put entries held)).devices member := by
  obtain ⟨kept, hput⟩ : ∃ kept, put entries held = kept ++ [held] := ⟨_, rfl⟩
  have hkeys := keys_mono hinj (holdsEvents_put hkey) hknown
  rw [(Alone.of_checked prims pod store _).mem_devices]
  rw [hput] at hkeys ⊢
  have hbytes : Alone.payload (kept ++ [held]) kept.length = .ok payload.encode :=
    payload_of_read (by simp) hread
  refine Or.inl ⟨⟨kept.length, member, version⟩, ?_, rfl, ?_, payload.devices, ?_, hdevice⟩
  · refine Parsed.mem_statements.mpr ⟨held, by simp, ?_⟩
    unfold Parsed.statementAt
    simp [hkey]
  · unfold Alone.statementVerdict
    simp [hbytes, hkeys, hverifies]
  · unfold Alone.listedDevices
    simp [hbytes]

end Statement

/-! ## Local writes -/

/-- A device statement written on this device. -/
inductive LocalWrite where
  /-- `serve_join`'s branch for a member: the statement the joiner answers with, under the inviting
  identity's author. -/
  | serve (identity : PdnId) (author : AuthorId) (request : JoinRequest) (creation : List UInt8)
      (acceptance : JoinAcceptance)
  /-- `register_device` of the identity with these keys. -/
  | register (keys : IdentityKeyPair) (device : MemberDevice)

namespace LocalWrite

variable (prims : Primitives) (orders : ℕ → HashOrder) (pod : PodId) (store : NamespaceId)

/-- The member concerned. -/
def concerned : LocalWrite → PdnId
  | .serve _ _ request _ _ => request.joiner
  | .register keys _ => keys.pdnId prims

/-- The device being registered. -/
def registers : LocalWrite → Option MemberDevice
  | .serve _ _ _ _ acceptance =>
    (acceptance.deviceStatement.bind DevicesPayload.decode).bind fun statement =>
      statement.devices.head?
  | .register _ device => some device

/-- The author of the write. -/
def author : LocalWrite → AuthorId
  | .serve _ author _ _ _ => author
  | .register _ device => device.author

/-- What is written; `none` when the write is refused or is of another kind, and nothing where the
device is listed already. -/
def written (view : MembershipView) : LocalWrite → Option (Option (MembershipKey × List UInt8))
  | .serve identity _ request creation acceptance =>
    (serveOffer prims view identity request creation).bind fun made =>
      if made.writeJoined then none
      else serveWrite prims pod view identity request made acceptance
  | .register keys device =>
    (registerDevice prims keys view (keys.pdnId prims) pod device).toOption

/-- The store after the write. -/
def after (entries : List HeldEntry) (write : LocalWrite) : List HeldEntry :=
  match write.written prims pod (.new prims orders pod store entries) with
  | some (some (key, payload)) => put entries (.arrived key.toBytes write.author payload)
  | _ => entries

/-- The write loses nothing. The statement at version 0 that the inviting author holds for the
joiner before the write, where it counts, lists no device but the one being registered and such as
are listed beside it; a device's own statement is written with a membership store at hand, and lists
no more than can be read. -/
def Keeps (entries : List HeldEntry) : LocalWrite → Prop
  | write@(.serve _ author request _ _) =>
    ∀ device,
      ListedAt prims pod store entries (MembershipKey.devices request.joiner 0).toBytes author
        request.joiner device →
      write.registers = some device ∨
        ListedBeside prims pod store entries (MembershipKey.devices request.joiner 0).toBytes author
          request.joiner device
  | .register keys _ =>
    (MembershipView.new prims orders pod store entries).identities ≠ [] ∧
      ∀ shown, (MembershipView.new prims orders pod store entries).member (keys.pdnId prims) =
        some shown → shown.devices.card < 1023

end LocalWrite

/-- The first statement at version 0 that an author carries to the store for a joiner takes no
other's place. -/
lemma LocalWrite.keeps_serve {author : AuthorId}
    {creation : List UInt8}
    (hfirst : ∀ held ∈ entries, ¬ (held.key = (MembershipKey.devices request.joiner 0).toBytes ∧
      held.author = author)) :
    LocalWrite.Keeps prims orders pod store entries
      (.serve identity author request creation acceptance) := by
  rintro device ⟨statement, -, -, held, hat, hplace⟩
  exact absurd hplace (hfirst held (List.mem_of_getElem? hat))

lemma version_toNat {version : ℕ} (h : version ≤ maxU64) : (UInt64.ofNat version).toNat = version :=
  UInt64.toNat_ofNat_of_lt' (by simp only [maxU64] at h; simp only [UInt64.size]; omega)

lemma payload_statement {version : UInt64} {author : AuthorId} {payload : DevicesPayload}
    (hlength : payload.devices.length ≤ 1023) :
    (HeldEntry.arrived (MembershipKey.devices member version).toBytes author
      payload.encode).payload = .read payload.encode := by
  have hlen : payload.encode.length ≤ statementMaxLen := by
    rw [payload.length_encode, statementMaxLen]
    omega
  unfold HeldEntry.arrived HeldPayload.unread?
  simp [hlen]

/-- What `register_device` writes with a membership store at hand. -/
lemma registerDevice_eq_ok {view : MembershipView} {keys : IdentityKeyPair}
    {written : Option (MembershipKey × List UInt8)} (hsome : view.identities ≠ [])
    (h : registerDevice prims keys view identity pod device = .ok written) :
    ∃ shown, view.member identity = some shown ∧ shown.state.member = true ∧
      (device ∈ shown.devices ∧ written = none ∨ shown.statementVersion + 1 ≤ maxU64 ∧
        written = some (.devices identity (UInt64.ofNat (shown.statementVersion + 1)),
          (keys.deviceStatement prims pod (UInt64.ofNat (shown.statementVersion + 1))
            (shown.devices.sort (· ≤ ·) ++ [device])).encode)) := by
  unfold registerDevice requireMember at h
  rw [if_neg (by simpa using hsome)] at h
  rcases hshown : (view.member identity).filter (fun member => member.state.member) with _ | shown
  · rw [hshown] at h
    cases h
  obtain ⟨hmember, hstate⟩ := Option.filter_eq_some_iff.mp hshown
  rw [hshown] at h
  simp only [bind, Except.bind] at h
  refine ⟨shown, hmember, hstate, ?_⟩
  split at h
  · next hlisted => exact Or.inl ⟨hlisted, (Except.ok.inj h).symm⟩
  · split at h
    · cases h
    · next hversion => exact Or.inr ⟨not_lt.mp hversion, (Except.ok.inj h).symm⟩

/-- What `serve_join` checks before it writes a statement. -/
lemma serveWrite_statement {view : MembershipView}
    {made : JoinOffer}
    {written : Option (MembershipKey × List UInt8)} (hold : made.writeJoined = false)
    (h : serveWrite prims pod view identity request made acceptance = some written) :
    ∃ statement device, acceptance.deviceStatement.bind DevicesPayload.decode = some statement ∧
      statement.devices = [device] ∧
      devicesVerify prims request.identityKey pod request.joiner 0 statement = true ∧
      (ListsDevice view request.joiner device ∧ written = none ∨
        written = some (.devices request.joiner 0, statement.encode)) := by
  unfold serveWrite at h
  simp only [Option.bind_eq_bind, Option.bind_eq_some_iff, hold] at h
  obtain ⟨inviter, -, h⟩ := h
  simp only [Bool.false_eq_true, if_false, Option.bind_eq_some_iff] at h
  obtain ⟨statement, hstatement, h⟩ := h
  split at h
  · next device hdevices =>
    refine ⟨statement, device, Option.bind_eq_some_iff.mpr hstatement, hdevices, ?_⟩
    split at h
    · cases h
    next hverifies =>
    refine ⟨by simpa using hverifies, ?_⟩
    split at h
    · next hlisted =>
      obtain ⟨known, hknown, hin⟩ := (Option.any_eq_true _ _).mp hlisted
      exact Or.inl ⟨⟨known, hknown, by simpa using hin⟩, (Option.some.inj h).symm⟩
    · exact Or.inr (Option.some.inj h).symm
  · cases h

section Step

variable (hinj : prims.Injective)

include hinj

/-- The inviter's statement lists the joiner's device, and loses none where `Keeps` holds. -/
lemma listed_after_serve {author : AuthorId}
    {creation : List UInt8}
    {written : Option (MembershipKey × List UInt8)}
    (hwritten : (LocalWrite.serve identity author request creation acceptance).written prims pod
      (MembershipView.new prims orders pod store entries) = some written)
    (hkeeps : (LocalWrite.serve identity author request creation acceptance).Keeps prims orders pod
      store entries) : let write := LocalWrite.serve identity author request creation acceptance
    (∃ device, write.registers = some device ∧
      ListsDevice (MembershipView.new prims orders pod store
        (write.after prims orders pod store entries)) request.joiner device) ∧
    ∀ member device,
      ListsDevice (MembershipView.new prims orders pod store entries) member device →
      ListsDevice (MembershipView.new prims orders pod store
        (write.after prims orders pod store entries)) member device := by
  intro write
  obtain ⟨made, hoffer, hwrite⟩ := Option.bind_eq_some_iff.mp hwritten
  split at hwrite
  · cases hwrite
  next hold =>
  have hold : made.writeJoined = false := by simpa using hold
  obtain ⟨hidentity, -, hmade⟩ := serveOffer_eq_some hoffer
  rw [hold] at hmade
  obtain ⟨key, hknown, hkey⟩ := keys_of_showsMember (showsMember_of_offer hmade.symm)
  obtain ⟨statement, device, hstatement, hdevices, hverifies, hcases⟩ :=
    serveWrite_statement hold hwrite
  have hregisters : write.registers = some device := by
    show ((acceptance.deviceStatement.bind DevicesPayload.decode).bind _) = _
    rw [hstatement]
    simp [hdevices]
  rcases hcases with ⟨hlisted, rfl⟩ | rfl
  · grind [LocalWrite.after]
  · have hafter : write.after prims orders pod store entries =
        put entries (.arrived (MembershipKey.devices request.joiner 0).toBytes author
          statement.encode) := by
      unfold LocalWrite.after
      rw [show write.written prims pod _ = some (some _) from hwritten]
      rfl
    rw [hafter]
    have hnew : device ∈ (checksOf prims pod store (put entries (.arrived
        (MembershipKey.devices request.joiner 0).toBytes author statement.encode))).devices
        request.joiner := by
      rw [← hinj (hkey.trans hidentity.symm)] at hverifies
      exact listed_of_put rfl hinj (payload_statement (by simp [hdevices])) hknown hverifies
        (by simp [hdevices])
    refine ⟨⟨device, hregisters, listsDevice_iff.mpr hnew⟩, fun member other hother => ?_⟩
    rcases listed_at_or_beside (MembershipKey.devices request.joiner 0).toBytes author
      (listsDevice_iff.mp hother) with hat | hbeside
    · obtain ⟨replaced, hreplaced, hlists, found, hfound, hplace⟩ := hat
      obtain ⟨_, hfound', hparse⟩ := Parsed.mem_statements.mp hreplaced
      obtain rfl := Option.some.inj (hfound.symm.trans hfound')
      obtain rfl : member = request.joiner :=
        hlists.1.symm.trans (statement_of_key hparse hplace.1).1
      rcases hkeeps other ⟨replaced, hreplaced, hlists, found, hfound, hplace⟩ with heq | hbeside
      · obtain rfl := Option.some.inj (hregisters.symm.trans heq)
        exact listsDevice_iff.mpr hnew
      · exact listsDevice_iff.mpr (hbeside.mem_devices_put rfl hinj)
    · exact listsDevice_iff.mpr (hbeside.mem_devices_put rfl hinj)

/-- A device's own statement lists the device and every device listed before it. -/
lemma listed_after_register (hsigns : prims.SignsVerify) {keys : IdentityKeyPair}
    {written : Option (MembershipKey × List UInt8)}
    (hwritten : (LocalWrite.register keys device).written prims pod
      (MembershipView.new prims orders pod store entries) = some written)
    (hkeeps : (LocalWrite.register keys device).Keeps prims orders pod store entries) :
    let write := LocalWrite.register keys device
    ListsDevice (MembershipView.new prims orders pod store
      (write.after prims orders pod store entries)) (keys.pdnId prims) device ∧
    ∀ member other,
      ListsDevice (MembershipView.new prims orders pod store entries) member other →
      ListsDevice (MembershipView.new prims orders pod store
        (write.after prims orders pod store entries)) member other := by
  intro write
  obtain ⟨hsome, hfew⟩ := hkeeps
  have hregister : registerDevice prims keys (MembershipView.new prims orders pod store entries)
      (keys.pdnId prims) pod device = .ok written := by
    rcases h : registerDevice prims keys (MembershipView.new prims orders pod store entries)
      (keys.pdnId prims) pod device with _ | result
    · have hnone : write.written prims pod (MembershipView.new prims orders pod store entries) =
          none := congrArg Except.toOption h
      cases hnone.symm.trans hwritten
    · have hresult : write.written prims pod (MembershipView.new prims orders pod store entries) =
          some result := congrArg Except.toOption h
      rw [Option.some.inj (hresult.symm.trans hwritten)]
  obtain ⟨shown, hshown, hstate, hcases⟩ := registerDevice_eq_ok hsome hregister
  obtain ⟨key, hknown, hkey⟩ := keys_of_showsMember ⟨shown, hshown, hstate⟩
  rcases hcases with ⟨hlisted, rfl⟩ | ⟨hversion, rfl⟩
  · have hafter : write.after prims orders pod store entries = entries := by
      unfold LocalWrite.after
      rw [show write.written prims pod _ = some none from hwritten]
    rw [hafter]
    exact ⟨⟨shown, hshown, hlisted⟩, fun _ _ h => h⟩
  · have hafter : write.after prims orders pod store entries = put entries (.arrived
        (MembershipKey.devices (keys.pdnId prims)
          (UInt64.ofNat (shown.statementVersion + 1))).toBytes device.author
        (keys.deviceStatement prims pod (UInt64.ofNat (shown.statementVersion + 1))
          (shown.devices.sort (· ≤ ·) ++ [device])).encode) := by
      unfold LocalWrite.after
      rw [show write.written prims pod _ = some (some _) from hwritten]
      rfl
    rw [hafter]
    refine ⟨listsDevice_iff.mpr (listed_of_put rfl hinj (payload_statement ?_) hknown ?_ ?_),
      fun member other hother => ?_⟩
    · have := hfew shown hshown
      simp only [IdentityKeyPair.deviceStatement, List.length_append, Finset.length_sort,
        List.length_singleton]
      omega
    · rw [hinj (hkey.trans rfl : pdnIdOf prims key = pdnIdOf prims (keys.publicKey prims))]
      exact devicesVerify_deviceStatement hsigns keys pod _ _
    · simp [IdentityKeyPair.deviceStatement]
    · -- a statement that counts has a lower version, so it is not replaced
      rcases listed_at_or_beside (MembershipKey.devices (keys.pdnId prims)
        (UInt64.ofNat (shown.statementVersion + 1))).toBytes device.author
        (listsDevice_iff.mp hother) with ⟨statement, hstatement, hlists, found, hfound, hplace⟩ |
          hbeside
      swap
      · exact listsDevice_iff.mpr (hbeside.mem_devices_put rfl hinj)
      obtain ⟨_, hfound', hparse⟩ := Parsed.mem_statements.mp hstatement
      obtain rfl := Option.some.inj (hfound.symm.trans hfound')
      have heq := statement_of_key hparse hplace.1
      have hle := ((Alone.of_checked prims pod store entries).versions_le (keys.pdnId prims) _).mp
        le_rfl statement hstatement heq.1 hlists.2.1
      have hshownVersion : shown.statementVersion =
          (checksOf prims pod store entries).statementVersions (keys.pdnId prims) := by
        rw [eq_shownMember hshown]
        rfl
      rw [heq.2, version_toNat hversion, ← hshownVersion] at hle
      omega

end Step

/-! ## Sequences of writes -/

section Run

variable (prims orders pod store)

/-- A sequence of writes, each accepted on the store it meets, and one that loses nothing there. -/
def Sound : List HeldEntry → List LocalWrite → Prop
  | _, [] => True
  | entries, write :: rest =>
    (write.written prims pod (.new prims orders pod store entries)).isSome = true ∧
      write.Keeps prims orders pod store entries ∧
      Sound (write.after prims orders pod store entries) rest

variable {prims orders pod store}

lemma Sound.drop {later : List LocalWrite} :
    ∀ (earlier : List LocalWrite) {entries : List HeldEntry},
      Sound prims orders pod store entries (earlier ++ later) →
      Sound prims orders pod store (earlier.foldl (LocalWrite.after prims orders pod store) entries)
        later
  | [], _, h => h
  | _ :: rest, _, h => Sound.drop rest h.2.2

/-- **One write** lists the device it registers, and keeps every device listed. -/
lemma LocalWrite.listed_after (hinj : prims.Injective) (hsigns : prims.SignsVerify)
    {write : LocalWrite}
    (hwritten : (write.written prims pod (.new prims orders pod store entries)).isSome = true)
    (hkeeps : write.Keeps prims orders pod store entries) :
    (∃ device, write.registers = some device ∧
      ListsDevice (MembershipView.new prims orders pod store
        (write.after prims orders pod store entries)) (write.concerned prims) device) ∧
    ∀ member device, ListsDevice (MembershipView.new prims orders pod store entries) member device →
      ListsDevice (MembershipView.new prims orders pod store
        (write.after prims orders pod store entries)) member device := by
  obtain ⟨written, hwritten⟩ := Option.isSome_iff_exists.mp hwritten
  cases write with
  | serve identity author request creation acceptance =>
    exact listed_after_serve hinj hwritten hkeeps
  | register keys device =>
    obtain ⟨hlisted, hkept⟩ := listed_after_register hinj hsigns hwritten hkeeps
    exact ⟨⟨device, rfl, hlisted⟩, hkept⟩

/-- **A sequence of writes** keeps every device listed. -/
lemma Sound.listed (hinj : prims.Injective) (hsigns : prims.SignsVerify) :
    ∀ {writes : List LocalWrite} {entries : List HeldEntry},
      Sound prims orders pod store entries writes → ∀ member device,
      ListsDevice (MembershipView.new prims orders pod store entries) member device →
      ListsDevice (MembershipView.new prims orders pod store
        (writes.foldl (LocalWrite.after prims orders pod store) entries)) member device
  | [], _, _, _, _, h => h
  | _ :: _, _, hsound, member, device, h => Sound.listed hinj hsigns hsound.2.2 member device
      ((LocalWrite.listed_after hinj hsigns hsound.1 hsound.2.1).2 member device h)

end Run

/-- **Local device-statement writes never lose a device**: after each write of a sequence the view
lists the device being registered and every device listed before it, and both are listed after the
whole sequence.

The writes are accepted; a statement at version 0 takes the place of none that alone lists a
device; and a device's own statement is written with a membership store at hand and lists at most
1,023 devices.

**Proof sketch.** A member's identity key is known, so a statement it signs counts. Of the counted
statements a write replaces only one at its own key, which a higher version never meets. -/
theorem writes_keep_devices (hinj : prims.Injective) (hsigns : prims.SignsVerify)
    (orders : ℕ → HashOrder) (pod : PodId) (store : NamespaceId) (entries : List HeldEntry)
    (earlier later : List LocalWrite) (write : LocalWrite)
    (hsound : Sound prims orders pod store entries (earlier ++ write :: later)) :
    let before := earlier.foldl (LocalWrite.after prims orders pod store) entries
    let after := write.after prims orders pod store before
    let final := later.foldl (LocalWrite.after prims orders pod store) after
    (∃ device, write.registers = some device ∧
      ListsDevice (MembershipView.new prims orders pod store after) (write.concerned prims) device ∧
      ListsDevice (MembershipView.new prims orders pod store final) (write.concerned prims)
        device) ∧
    ∀ member device,
      ListsDevice (MembershipView.new prims orders pod store before) member device →
      ListsDevice (MembershipView.new prims orders pod store after) member device ∧
      ListsDevice (MembershipView.new prims orders pod store final) member device := by
  intro before after final
  obtain ⟨hwritten, hkeeps, hrest⟩ := Sound.drop earlier hsound
  obtain ⟨⟨device, hregisters, hlisted⟩, hkept⟩ :=
    LocalWrite.listed_after hinj hsigns hwritten hkeeps
  refine ⟨⟨device, hregisters, hlisted, hrest.listed hinj hsigns _ _ hlisted⟩, ?_⟩
  intro member other hother
  exact ⟨hkept member other hother, hrest.listed hinj hsigns _ _ (hkept member other hother)⟩

open Testing in
/-- A member's new device joins through the inviter. -/
def joinAgain (family : Store) (inviter joiner : Person) (joinerRun : ℕ) (device : MemberDevice) :
    LocalWrite :=
  .serve inviter.id inviter.author ⟨joiner.id, joiner.keys.publicKey transparent, joinerRun⟩ []
    ⟨none, some (joiner.keys.deviceStatement transparent family.pod 0 [device]).encode⟩

open Testing in
set_option maxRecDepth 100000 in
/-- Alice registers a second device, and a second one of Bob's joins through her. -/
theorem writes_keep_devices_alice : let family := (Store.createdBy alice).invite alice 1 bob
    let earlier := [LocalWrite.register alice.keys (Testing.device 0x44)]
    let write := joinAgain family alice bob 1 (Testing.device 0xb1)
    let before := earlier.foldl (LocalWrite.after transparent (fun _ => default) family.pod
      family.namespaceId) family.entries
    let after := write.after transparent (fun _ => default) family.pod family.namespaceId before
    ∃ registered, write.registers = some registered ∧
      ListsDevice (MembershipView.new transparent (fun _ => default) family.pod family.namespaceId
        after) bob.id registered := by
  intro family earlier write before after
  have hfew : ((MembershipView.new transparent (fun _ => default) family.pod
      family.namespaceId family.entries).member (alice.keys.pdnId transparent)).all
        (fun shown => decide (shown.devices.card < 1023)) = true := by decide +kernel
  have hkeeps : write.Keeps transparent (fun _ => default) family.pod family.namespaceId
      ((LocalWrite.register alice.keys (Testing.device 0x44)).after transparent (fun _ => default)
        family.pod family.namespaceId family.entries) :=
    LocalWrite.keeps_serve (by decide +kernel)
  have hsound : Sound transparent (fun _ => default) family.pod family.namespaceId family.entries
      (earlier ++ [write]) := by
    refine ⟨by decide +kernel, ⟨by decide +kernel, fun shown hshown => ?_⟩, by decide +kernel,
      hkeeps, trivial⟩
    rw [hshown] at hfew
    exact of_decide_eq_true hfew
  obtain ⟨registered, hregistered, hlisted, -⟩ := (writes_keep_devices transparent_injective
    transparent_signsVerify (fun _ => default) family.pod family.namespaceId family.entries earlier
    [] write hsound).1
  exact ⟨registered, hregistered, hlisted⟩

open Testing in
set_option maxRecDepth 100000 in
/-- Local writes may lose a device: the statement for a third device of Bob's that joins through
Alice takes the place of the one for his second; and a device that registers itself before it holds
anything writes a statement that waits for the identity key. -/
theorem writes_lose_devices : let family := (Store.createdBy alice).invite alice 1 bob
    let view (entries : List HeldEntry) : MembershipView :=
      .new transparent (fun _ => default) family.pod family.namespaceId entries
    let lists (entries : List HeldEntry) (member : Person) (listed : MemberDevice) : Bool :=
      ((view entries).member member.id).any fun shown => listed ∈ shown.devices
    let after := LocalWrite.after transparent (fun _ => default) family.pod family.namespaceId
    let second := joinAgain family alice bob 1 (Testing.device 0xb1)
    let third := joinAgain family alice bob 1 (Testing.device 0xb2)
    let middle := after family.entries second
    let alone := LocalWrite.register alice.keys (Testing.device 0x44)
    ((second.written transparent family.pod (view family.entries)).isSome = true ∧
      (third.written transparent family.pod (view middle)).isSome = true ∧
      lists middle bob (Testing.device 0xb1) = true ∧
        lists (after middle third) bob (Testing.device 0xb1) = false) ∧
    (alone.written transparent family.pod (view [])).isSome = true ∧
      lists (after [] alone) alice (Testing.device 0x44) = false := by
  decide +kernel

end MeePdn.Pods
