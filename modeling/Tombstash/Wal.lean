import Tombstash.Record
import Mathlib.Data.List.Induction

set_option autoImplicit false

namespace Tombstash

def kLenSize : Nat := 4

def walRecord (rec : Record) : Bytes :=
  [rec.op.code] ++ putU32Le rec.key.length ++ rec.key ++ putU32Le rec.value.length ++ rec.value

-- The bytes Wal::append hands to write_all.
def walAppend (rec : Record) : Except Error Bytes :=
  if rec.key.length > uint32Max ∨ rec.value.length > uint32Max then
    .error (.length "WAL record field exceeds 4 GiB")
  else .ok (walRecord rec)

theorem wal_append_bytes (rec : Record) (bytes : Bytes) (done : walAppend rec = .ok bytes) : bytes = walRecord rec := by
  rw [walAppend] at done
  split at done
  · cases done
  · cases done
    rfl

-- One turn of the replay loop. data is the log from pos on; none is a break.
def replayOne (data : Bytes) : Option (Record × Bytes) :=
  if data.length < 1 + kLenSize then none
  else
    let op : Op := ⟨data.headD 0⟩
    let p := data.drop 1
    let klen := readU32Le p
    let p := p.drop kLenSize
    if p.length < klen then none
    else
      let key := p.take klen
      let p := p.drop klen
      if p.length < kLenSize then none
      else
        let vlen := readU32Le p
        let p := p.drop kLenSize
        if p.length < vlen then none
        else some (⟨op, key, p.take vlen, false, {}⟩, p.drop vlen)

def replayLoop : Nat → Bytes → List Record × Bytes
  | 0, data => ([], data)
  | fuel + 1, data =>
      match replayOne data with
      | none => ([], data)
      | some (rec, rest) => (rec :: (replayLoop fuel rest).1, (replayLoop fuel rest).2)

-- A turn that goes on consumes at least nine bytes, so the length bounds the turns.
def replay (data : Bytes) : List Record := (replayLoop data.length data).1

-- The bytes at which the loop breaks: a torn record, or nothing.
def tornTail (data : Bytes) : Bytes := (replayLoop data.length data).2

def walBytes (records : List Record) : Bytes := records.flatMap walRecord

-- What a log can hold: values are inline and both lengths fit their fields.
structure Logged (rec : Record) : Prop where
  inline : rec.separated = false
  noPtr : rec.vptr = {}
  keyFits : rec.key.length ≤ uint32Max
  valueFits : rec.value.length ≤ uint32Max

theorem length_wal_record (rec : Record) : (walRecord rec).length = 9 + rec.key.length + rec.value.length := by
  simp [walRecord]
  omega

theorem replay_one_inverse (data : Bytes) (rec : Record) (rest : Bytes) (parsed : replayOne data = some (rec, rest)) :
    data = walRecord rec ++ rest ∧ Logged rec := by
  unfold replayOne at parsed
  split at parsed
  · cases parsed
  rename_i header
  dsimp only at parsed
  split at parsed
  · cases parsed
  rename_i keyInside
  split at parsed
  · cases parsed
  rename_i lenInside
  split at parsed
  · cases parsed
  rename_i valueInside
  cases parsed
  cases data with
  | nil => simp [kLenSize] at header
  | cons op tail =>
      simp only [List.length_cons, kLenSize, List.drop_succ_cons, List.drop_zero, List.headD_cons] at *
      have keyLen : (List.take (readU32Le tail) (List.drop 4 tail)).length = readU32Le tail := by
        rw [List.length_take]; omega
      have valueLen : (List.take (readU32Le (List.drop (readU32Le tail) (List.drop 4 tail)))
          (List.drop 4 (List.drop (readU32Le tail) (List.drop 4 tail)))).length =
          readU32Le (List.drop (readU32Le tail) (List.drop 4 tail)) := by
        rw [List.length_take]; omega
      constructor
      · have first := put_read_u32 tail (by omega)
        have second := put_read_u32 (List.drop (readU32Le tail) (List.drop 4 tail)) (by omega)
        simp only [walRecord, keyLen, valueLen, List.nil_append, List.cons_append, List.append_assoc,
          List.take_append_drop, second, first]
      · refine ⟨rfl, rfl, ?_, ?_⟩
        · have bound := read_u32_lt tail
          simp only [keyLen, uint32Max]
          omega
        · have bound := read_u32_lt (List.drop (readU32Le tail) (List.drop 4 tail))
          simp only [valueLen, uint32Max]
          omega

theorem replay_one_append (rec : Record) (rest : Bytes) (logged : Logged rec) :
    replayOne (walRecord rec ++ rest) = some (rec, rest) := by
  obtain ⟨op, key, value, separated, vptr⟩ := rec
  obtain ⟨inline, noPtr, keyFits, valueFits⟩ := logged
  cases inline
  cases noPtr
  have shape : walRecord ⟨op, key, value, false, {}⟩ ++ rest =
      op.code :: (putU32Le key.length ++ (key ++ (putU32Le value.length ++ (value ++ rest)))) := by
    simp [walRecord]
  have afterKeyLen (tail : Bytes) : (putU32Le key.length ++ tail).drop 4 = tail := List.drop_left' (length_put_u32 _)
  have afterValueLen (tail : Bytes) : (putU32Le value.length ++ tail).drop 4 = tail :=
    List.drop_left' (length_put_u32 _)
  rw [shape, replayOne]
  simp only [List.length_cons, List.length_append, length_put_u32, kLenSize, List.drop_succ_cons, List.drop_zero,
    List.headD_cons, read_put_u32_of_le _ _ keyFits, afterKeyLen, List.drop_left, List.take_left,
    read_put_u32_of_le _ _ valueFits, afterValueLen]
  rw [if_neg (by omega), if_neg (by omega), if_neg (by omega), if_neg (by omega)]

theorem replay_one_shrinks (data : Bytes) (rec : Record) (rest : Bytes) (parsed : replayOne data = some (rec, rest)) :
    rest.length + 9 ≤ data.length := by
  obtain ⟨split, _⟩ := replay_one_inverse data rec rest parsed
  rw [split, List.length_append, length_wal_record]
  omega

-- A strict prefix of an encoding never decodes: the lengths it carries, as far
-- as they are there, ask for more bytes than follow.
theorem replay_one_torn (rec : Record) (torn rest : Bytes) (logged : Logged rec) (cut : walRecord rec = torn ++ rest)
    (strict : rest ≠ []) : replayOne torn = none := by
  cases parsed : replayOne torn with
  | none => rfl
  | some result =>
      obtain ⟨other, tail⟩ := result
      obtain ⟨split, otherLogged⟩ := replay_one_inverse torn other tail parsed
      have whole := replay_one_append rec [] logged
      rw [List.append_nil, cut, split, List.append_assoc, replay_one_append other (tail ++ rest) otherLogged] at whole
      have empty : tail ++ rest = [] := (Prod.mk.inj (Option.some.inj whole)).2
      exact absurd (List.append_eq_nil_iff.mp empty).2 strict

theorem replay_loop_fuel (fuel : Nat) (data : Bytes) (enough : data.length ≤ fuel) :
    replayLoop fuel data = (replay data, tornTail data) := by
  refine loop_fuel replayLoop (fun fuel => by cases fuel <;> rfl) ?_ fuel data enough
  intro fuel more data _ shorter
  rw [replayLoop, replayLoop]
  cases parsed : replayOne data with
  | none => rfl
  | some result =>
      have shrinks := replay_one_shrinks data result.1 result.2 parsed
      simp only [shorter result.2 (by omega)]

theorem replay_append (rec : Record) (rest : Bytes) (logged : Logged rec) :
    replay (walRecord rec ++ rest) = rec :: replay rest ∧ tornTail (walRecord rec ++ rest) = tornTail rest := by
  have long : (walRecord rec ++ rest).length = (rest.length + 8 + rec.key.length + rec.value.length) + 1 := by
    rw [List.length_append, length_wal_record]
    omega
  unfold replay tornTail
  rw [long, replayLoop, replay_one_append rec rest logged]
  simp only
  rw [replay_loop_fuel _ rest (by omega)]
  exact ⟨rfl, rfl⟩

theorem replay_wal_bytes (records : List Record) (tail : Bytes) (logged : ∀ rec ∈ records, Logged rec) :
    replay (walBytes records ++ tail) = records ++ replay tail ∧
    tornTail (walBytes records ++ tail) = tornTail tail := by
  induction records with
  | nil => exact ⟨rfl, rfl⟩
  | cons rec rest ih =>
      obtain ⟨records, torn⟩ := ih (fun other member => logged other (by simp [member]))
      have head := replay_append rec (walBytes rest ++ tail) (logged rec (by simp))
      have shape : walBytes (rec :: rest) ++ tail = walRecord rec ++ (walBytes rest ++ tail) := by simp [walBytes]
      rw [shape, head.1, head.2, records, torn]
      exact ⟨rfl, rfl⟩

theorem replay_torn (data : Bytes) (torn : replayOne data = none) : replay data = [] ∧ tornTail data = data := by
  unfold replay tornTail
  cases data with
  | nil => exact ⟨rfl, rfl⟩
  | cons byte rest => simp [replayLoop, torn]

theorem replay_inverse (data : Bytes) :
    data = walBytes (replay data) ++ tornTail data ∧ (∀ rec ∈ replay data, Logged rec) ∧
    replayOne (tornTail data) = none := by
  have general : ∀ n data, data.length ≤ n →
      data = walBytes (replay data) ++ tornTail data ∧ (∀ rec ∈ replay data, Logged rec) ∧
        replayOne (tornTail data) = none := by
    intro n
    induction n with
    | zero =>
        intro data short
        have empty := List.eq_nil_of_length_eq_zero (Nat.le_zero.mp short)
        subst empty
        exact ⟨rfl, by simp [replay, replayLoop], rfl⟩
    | succ n ih =>
        intro data short
        cases parsed : replayOne data with
        | none =>
            obtain ⟨records, tail⟩ := replay_torn data parsed
            rw [records, tail]
            exact ⟨rfl, by simp, parsed⟩
        | some result =>
            obtain ⟨split, logged⟩ := replay_one_inverse data result.1 result.2 parsed
            have shrinks := replay_one_shrinks data result.1 result.2 parsed
            obtain ⟨records, tail⟩ := replay_append result.1 result.2 logged
            obtain ⟨restEq, restLogged, restTorn⟩ := ih result.2 (by omega)
            rw [← split] at records tail
            rw [records, tail]
            refine ⟨?_, ?_, restTorn⟩
            · rw [split]
              simpa [walBytes] using restEq
            · intro rec member
              rcases List.mem_cons.mp member with same | later
              · rw [same]
                exact logged
              · exact restLogged rec later
  exact general data.length data (le_refl _)

theorem wal_bytes_append (front back : List Record) : walBytes (front ++ back) = walBytes front ++ walBytes back := by
  simp [walBytes]

-- A cut anywhere in a log of whole records replays the records that are still
-- whole, and no shorter or other record.
theorem replay_prefix (records : List Record) (data rest : Bytes) (logged : ∀ rec ∈ records, Logged rec)
    (cut : walBytes records = data ++ rest) :
    ∃ n, n ≤ records.length ∧ replay data = records.take n ∧
      ∀ m, m ≤ records.length → (walBytes (records.take m)).length ≤ data.length → m ≤ n := by
  induction records generalizing data with
  | nil =>
      have empty : data = [] := (List.append_eq_nil_iff.mp cut.symm).1
      subst empty
      exact ⟨0, le_refl _, rfl, fun m bound _ => bound⟩
  | cons rec others ih =>
      have recLogged := logged rec (by simp)
      have shape : walBytes (rec :: others) = walRecord rec ++ walBytes others := by simp [walBytes]
      rw [shape] at cut
      by_cases whole : (walRecord rec).length ≤ data.length
      · obtain ⟨remaining, split⟩ : ∃ remaining, data = walRecord rec ++ remaining :=
          List.prefix_of_prefix_length_le ⟨walBytes others, cut⟩ ⟨rest, rfl⟩ whole |>.imp (fun _ eq => eq.symm)
        subst split
        rw [List.append_assoc, List.append_cancel_left_eq] at cut
        obtain ⟨n, bound, replayed, most⟩ := ih remaining (fun other member => logged other (by simp [member])) cut
        refine ⟨n + 1, by simpa using bound, ?_, ?_⟩
        · rw [(replay_append rec remaining recLogged).1, replayed]
          rfl
        · intro m inside fits
          cases m with
          | zero => omega
          | succ m =>
              have smaller := most m (by simpa using inside) (by
                simp only [List.take_succ_cons, walBytes, List.flatMap_cons, List.length_append] at fits ⊢
                omega)
              omega
      · obtain ⟨remaining, split⟩ : ∃ remaining, walRecord rec = data ++ remaining :=
          List.prefix_of_prefix_length_le ⟨rest, rfl⟩ ⟨walBytes others, cut⟩ (by omega) |>.imp (fun _ eq => eq.symm)
        have strict : remaining ≠ [] := by
          intro empty
          rw [empty, List.append_nil] at split
          rw [split] at whole
          exact whole (le_refl _)
        refine ⟨0, Nat.zero_le _, (replay_torn data (replay_one_torn rec data remaining recLogged split strict)).1, ?_⟩
        intro m _ fits
        cases m with
        | zero => exact le_refl _
        | succ m =>
            simp only [List.take_succ_cons, walBytes, List.flatMap_cons, List.length_append] at fits
            omega

-- What a log carries of a record: append writes no pointer, and replay fills in
-- the defaults.
def Record.carried (rec : Record) : Record := ⟨rec.op, rec.key, rec.value, false, {}⟩

theorem carried_logged (rec : Record) (keyFits : rec.key.length ≤ uint32Max)
    (valueFits : rec.value.length ≤ uint32Max) :
    Logged rec.carried := ⟨rfl, rfl, keyFits, valueFits⟩

theorem wal_append_all (records : List Record)
    (fits : ∀ rec ∈ records, rec.key.length ≤ uint32Max ∧ rec.value.length ≤ uint32Max) :
    records.mapM walAppend = .ok (records.map walRecord) := by
  induction records with
  | nil => rfl
  | cons rec rest ih =>
      obtain ⟨keyFits, valueFits⟩ := fits rec (by simp)
      have head : walAppend rec = .ok (walRecord rec) := by
        rw [walAppend, if_neg (by omega)]
      rw [List.mapM_cons, head, ih (fun other member => fits other (by simp [member]))]
      rfl

theorem wal_bytes_carried (records : List Record) :
    walBytes (records.map Record.carried) = (records.map walRecord).flatten := by
  rw [walBytes, List.flatMap_map, List.flatMap_def]
  rfl

-- The second half holds of every byte string: from the length on, more turns
-- change nothing, and the loop stops where no whole record is left.
theorem replay_recovers_whole_records (records : List Record)
    (fits : ∀ rec ∈ records, rec.key.length ≤ uint32Max ∧ rec.value.length ≤ uint32Max) :
    (∃ encodings, records.mapM walAppend = .ok encodings ∧
      ∀ data, data <+: encodings.flatten →
        ∃ n, n ≤ records.length ∧ replay data = (records.take n).map Record.carried ∧
          (encodings.take n).flatten.length ≤ data.length ∧
          ∀ m, m ≤ records.length → (encodings.take m).flatten.length ≤ data.length → m ≤ n) ∧
    ∀ data fuel, data.length ≤ fuel →
      replayLoop fuel data = (replay data, tornTail data) ∧ replayOne (tornTail data) = none := by
  have encoded (n : Nat) :
    ((records.map walRecord).take n).flatten = walBytes ((records.map Record.carried).take n) := by
    rw [← List.map_take, ← List.map_take, wal_bytes_carried]
  have logged : ∀ rec ∈ records.map Record.carried, Logged rec := by
    intro rec member
    obtain ⟨source, inside, rfl⟩ := List.mem_map.mp member
    exact carried_logged source (fits source inside).1 (fits source inside).2
  refine ⟨⟨records.map walRecord, wal_append_all records fits, ?_⟩, ?_⟩
  · rintro data ⟨rest, cut⟩
    obtain ⟨n, bound, replayed, most⟩ := replay_prefix (records.map Record.carried) data rest logged
      (by rw [wal_bytes_carried, cut])
    rw [List.length_map] at bound most
    refine ⟨n, bound, by rw [replayed, List.map_take], ?_, ?_⟩
    · rw [encoded, ← replayed]
      have inverse := congrArg List.length (replay_inverse data).1
      rw [List.length_append] at inverse
      omega
    · intro m inside short
      rw [encoded] at short
      exact most m inside short
  · intro data fuel enough
    exact ⟨replay_loop_fuel fuel data enough, (replay_inverse data).2.2⟩

def putAndDelete : List Record := [⟨Op.put, [0x61], [0x62], false, {}⟩, ⟨Op.delete, [0x63], [], false, {}⟩]

theorem put_survives_cut_delete :
    ∃ encodings, putAndDelete.mapM walAppend = .ok encodings ∧
    replay (encodings.flatten.take 20) = putAndDelete.take 1 := by
  obtain ⟨⟨encodings, written, cuts⟩, _⟩ := replay_recovers_whole_records putAndDelete (by decide)
  obtain ⟨n, bound, replayed, whole, most⟩ := cuts (encodings.flatten.take 20) (List.take_prefix 20 _)
  refine ⟨encodings, written, ?_⟩
  have same : encodings = putAndDelete.map walRecord := by
    have computed : putAndDelete.mapM walAppend = .ok (putAndDelete.map walRecord) := by decide +kernel
    rw [computed] at written
    cases written
    rfl
  subst same
  have one : n = 1 := by
    have least := most 1 (by decide) (by decide +kernel)
    have notTwo : n ≠ 2 := by
      rintro rfl
      exact absurd whole (by decide +kernel)
    have atMost : n ≤ 2 := bound
    omega
  rw [replayed, one]
  rfl

-- The life of one wal.log file: appends that complete, appends that leave cut
-- bytes of their record behind, and reopenings (O_APPEND, no truncation).
inductive WalEvent where
  | completed (rec : Record)
  | torn (rec : Record) (cut : Nat)
  | reopen

def walEvent (file : Bytes) : WalEvent → Bytes
  | .completed rec => file ++ walRecord rec
  | .torn rec cut => file ++ (walRecord rec).take cut
  | .reopen => file

def walFile (events : List WalEvent) : Bytes := events.foldl walEvent []

def completedRecords : List WalEvent → List Record
  | [] => []
  | .completed rec :: rest => rec :: completedRecords rest
  | _ :: rest => completedRecords rest

def WalEvent.Possible : WalEvent → Prop
  | .completed rec => Logged rec
  | .torn rec cut => Logged rec ∧ cut < (walRecord rec).length
  | .reopen => True

def WalEvent.Appends : WalEvent → Prop
  | .reopen => False
  | _ => True

-- Every append finds a file that ends with a whole record.
def AppendsAligned (events : List WalEvent) : Prop :=
  ∀ before event after, events = before ++ event :: after → event.Appends → tornTail (walFile before) = []

theorem completed_records_append (front back : List WalEvent) :
    completedRecords (front ++ back) = completedRecords front ++ completedRecords back := by
  induction front with
  | nil => rfl
  | cons event rest ih => cases event <;> simp [completedRecords, ih]

theorem wal_event_keeps (records : List Record) (tail : Bytes) (event : WalEvent)
    (torn : replayOne tail = none) (possible : event.Possible)
    (aligned : event.Appends → tail = []) :
    ∃ next, walEvent (walBytes records ++ tail) event = walBytes (records ++ completedRecords [event]) ++ next ∧
      replayOne next = none := by
  cases event with
  | completed rec =>
      rw [aligned trivial]
      exact ⟨[], by simp [walEvent, completedRecords, walBytes], rfl⟩
  | torn rec cut =>
      rw [aligned trivial]
      refine ⟨(walRecord rec).take cut, by simp [walEvent, completedRecords], ?_⟩
      refine replay_one_torn rec _ ((walRecord rec).drop cut) possible.1 (List.take_append_drop _ _).symm ?_
      intro empty
      have short := List.drop_eq_nil_iff.mp empty
      have inside := possible.2
      omega
  | reopen => exact ⟨tail, by simp [walEvent, completedRecords], torn⟩

theorem completed_logged (events : List WalEvent) (possible : ∀ event ∈ events, event.Possible) :
    ∀ rec ∈ completedRecords events, Logged rec := by
  induction events with
  | nil => simp [completedRecords]
  | cons event rest ih =>
      have tail := ih (fun other member => possible other (by simp [member]))
      have head := possible event (by simp)
      cases event with
      | completed rec =>
          intro other member
          rcases List.mem_cons.mp member with same | later
          · rw [same]
            exact head
          · exact tail other later
      | torn rec cut => exact tail
      | reopen => exact tail

theorem wal_file_shape (events : List WalEvent) (possible : ∀ event ∈ events, event.Possible)
    (aligned : AppendsAligned events) :
    ∃ tail, walFile events = walBytes (completedRecords events) ++ tail ∧ replayOne tail = none := by
  induction events using List.reverseRecOn with
  | nil => exact ⟨[], rfl, rfl⟩
  | append_singleton front event ih =>
      have frontPossible : ∀ other ∈ front, other.Possible := fun other member => possible other (by simp [member])
      obtain ⟨tail, shape, torn⟩ := ih frontPossible (by
        intro before other after split
        exact aligned before other (after ++ [event]) (by simp [split]))
      have logged := completed_logged front frontPossible
      have tailEmpty : event.Appends → tail = [] := by
        intro appends
        have found := aligned front event [] rfl appends
        rw [shape, (replay_wal_bytes _ tail logged).2, (replay_torn tail torn).2] at found
        exact found
      obtain ⟨next, nextShape, nextTorn⟩ :=
        wal_event_keeps (completedRecords front) tail event torn (possible event (by simp)) tailEmpty
      refine ⟨next, ?_, nextTorn⟩
      rw [walFile, List.foldl_append, completed_records_append, ← nextShape, ← shape]
      rfl

theorem aligned_appends_survive (events : List WalEvent) (possible : ∀ event ∈ events, event.Possible)
    (aligned : AppendsAligned events) : replay (walFile events) = completedRecords events := by
  obtain ⟨tail, shape, torn⟩ := wal_file_shape events possible aligned
  rw [shape, (replay_wal_bytes _ tail (completed_logged events possible)).1, (replay_torn tail torn).1, List.append_nil]

-- A put whose write stopped after its key, and a whole put after the reopen:
-- replay reads the length of the first value out of the second record.
def tornThenPut : List WalEvent :=
  [.torn ⟨Op.put, [0x61], [0x62], false, {}⟩ 6, .reopen, .completed ⟨Op.put, [0x63], [0x64], false, {}⟩]

theorem torn_append_hides_later_record :
    (∀ event ∈ tornThenPut, event.Possible) ∧ replay (walFile tornThenPut) = [] ∧
      completedRecords tornThenPut = [⟨Op.put, [0x63], [0x64], false, {}⟩] := by
  refine ⟨?_, by decide +kernel, by decide +kernel⟩
  intro event member
  simp only [tornThenPut, List.mem_cons, List.not_mem_nil, or_false] at member
  rcases member with rfl | rfl | rfl
  · exact ⟨⟨rfl, rfl, by decide, by decide⟩, by decide +kernel⟩
  · trivial
  · exact ⟨rfl, rfl, by decide, by decide⟩

def putThenTorn : List WalEvent :=
  [.completed ⟨Op.put, [0x63], [0x64], false, {}⟩, .torn ⟨Op.put, [0x61], [0x62], false, {}⟩ 6, .reopen]

theorem put_then_torn_survives :
    replay (walFile putThenTorn) = completedRecords putThenTorn ∧
      completedRecords putThenTorn = [⟨Op.put, [0x63], [0x64], false, {}⟩] := by
  refine ⟨aligned_appends_survive putThenTorn ?_ ?_, by decide +kernel⟩
  · intro event member
    simp only [putThenTorn, List.mem_cons, List.not_mem_nil, or_false] at member
    rcases member with rfl | rfl | rfl
    · exact ⟨rfl, rfl, by decide, by decide⟩
    · exact ⟨⟨rfl, rfl, by decide, by decide⟩, by decide +kernel⟩
    · trivial
  · intro before event after split appends
    rcases before with _ | ⟨first, _ | ⟨second, _ | ⟨third, rest⟩⟩⟩
    · decide +kernel
    · cases split
      decide +kernel
    · cases split
      exact False.elim appends
    · simp [putThenTorn] at split

end Tombstash
