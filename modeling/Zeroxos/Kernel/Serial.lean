import Zeroxos.Library.Uart
import Mathlib.Order.Nat

/-!
# The serial console

`serial.rs`, over the device: the port is programmed by a sequence of writes in which two ports
change their meaning and back, and bytes are written one by one, each after polling until the
transmitter is empty, with a carriage return in front of every line feed.

## Time

How fast the line is, is not known: between any two accesses of the processor the device may send
any number of bytes. A `LineTime` gives these numbers, and the results hold for every line that goes
on sending. A polling loop is given the number of rounds it may take, and there is always a number
that is enough.

## What arrives

From any state of the device, once the port is programmed, what is written arrives: every byte, in
order, at 38400 baud, eight bits, no parity, one stop bit (`console_output`). `Shows` says so of a
state in the middle of a text. A reader gets back what was written by dropping the carriage returns.
-/

namespace Zeroxos

/-! ## Ports -/

def com1 : BitVec 16 := 0x3F8

/-- How often the line gets free before each access. -/
abbrev LineTime := ℕ → ℕ

/-- The line goes on sending. -/
def LineTime.Fair (line : LineTime) : Prop := ∀ t, ∃ k, 0 < line (t + k)

/-- The device at `COM1`, and how many accesses there have been. -/
structure Console where
  uart : Uart
  clock : ℕ

namespace Console

variable (line : LineTime) (c : Console)

/-- The device when the next access comes to it. -/
def arrive : Uart := c.uart.ticks (line c.clock)

def outb (port : BitVec 16) (value : BitVec 8) : Console :=
  ⟨(c.arrive line).out (port - com1).toNat value, c.clock + 1⟩

def inb (port : BitVec 16) : BitVec 8 × Console :=
  ((c.arrive line).inp (port - com1).toNat, ⟨c.arrive line, c.clock + 1⟩)

end Console

/-! ## `SerialPort` -/

structure SerialPort where
  base : BitVec 16

namespace SerialPort

def init (p : SerialPort) (line : LineTime) (c : Console) : Console :=
  let c := c.outb line (p.base + 1) 0x00
  let c := c.outb line (p.base + 3) 0x80
  let c := c.outb line (p.base + 0) 0x03
  let c := c.outb line (p.base + 1) 0x00
  let c := c.outb line (p.base + 3) 0x03
  let c := c.outb line (p.base + 2) 0xC7
  c.outb line (p.base + 4) 0x0B

def canSend (p : SerialPort) (line : LineTime) (c : Console) : Bool × Console :=
  let (status, c) := c.inb line (p.base + 5)
  (status &&& 0x20 != 0, c)

/-- `put`, for at most so many rounds of its loop. -/
def put (p : SerialPort) (line : LineTime) (byte : BitVec 8) : ℕ → Console → Option Console
  | 0, _ => none
  | rounds + 1, c =>
    let (ready, c) := p.canSend line c
    if ready then some (c.outb line p.base byte) else p.put line byte rounds c

def writeByte (p : SerialPort) (line : LineTime) (rounds : ℕ) (byte : BitVec 8) (c : Console) :
    Option Console := do
  let c ← if byte = 0x0A then p.put line 0x0D rounds c else some c
  p.put line byte rounds c

def writeStr (p : SerialPort) (line : LineTime) (rounds : ℕ) (s : List (BitVec 8)) (c : Console) :
    Option Console :=
  s.foldlM (fun c byte ↦ p.writeByte line rounds byte c) c

end SerialPort

/-- `COM1_PORT`, apart from its lock. -/
def com1Port : SerialPort := ⟨com1⟩

/-! ## Lines -/

/-- The bytes that are put on the line for a text. -/
def crlf (s : List (BitVec 8)) : List (BitVec 8) :=
  s.flatMap fun byte ↦ if byte = 0x0A then [0x0D, 0x0A] else [byte]

/-- A reader of lines. -/
def uncrlf : List (BitVec 8) → List (BitVec 8)
  | [] => []
  | [a] => [a]
  | a :: b :: l => if a = 0x0D ∧ b = 0x0A then b :: uncrlf l else a :: uncrlf (b :: l)

theorem crlf_cons (a : BitVec 8) (s : List (BitVec 8)) :
    crlf (a :: s) = (if a = 0x0A then [0x0D, 0x0A] else [a]) ++ crlf s := rfl

theorem crlf_append (s t : List (BitVec 8)) : crlf (s ++ t) = crlf s ++ crlf t :=
  List.flatMap_append

theorem crlf_ne_cons (s l : List (BitVec 8)) : crlf s ≠ 0x0A :: l := by
  cases s with
  | nil => exact fun h ↦ nomatch h
  | cons a s =>
    rw [crlf_cons]
    split_ifs with ha
    · exact fun h ↦ absurd (List.cons.inj h).1 (by decide)
    · exact fun h ↦ ha (List.cons.inj h).1

/-- **A text is read as it was written.** -/
theorem uncrlf_crlf (s : List (BitVec 8)) : uncrlf (crlf s) = s := by
  induction s with
  | nil => rfl
  | cons a s ih =>
    rw [crlf_cons]
    split_ifs with ha
    · rw [List.cons_append, List.cons_append, List.nil_append, uncrlf, if_pos ⟨rfl, rfl⟩, ih, ha]
    · rw [List.singleton_append]
      cases hs : crlf s with
      | nil =>
        rw [hs] at ih
        rw [uncrlf, ← ih]
        rfl
      | cons b l =>
        have hb : b ≠ 0x0A := fun h ↦ crlf_ne_cons s l (h ▸ hs)
        rw [hs] at ih
        rw [uncrlf, if_neg fun h ↦ hb h.2, ih]

/-! ## What arrives -/

/-- The settings of `init`: 38400 baud, eight bits, no parity, one stop bit, and the buffer on. -/
def serialSettings (ier : BitVec 8) : Uart.Settings := ⟨ier, 0x03, 0x0B, 0x0003, true⟩

/-- A byte as it is to be sent. -/
def serialByte (byte : BitVec 8) : SentByte := ⟨0x0003, 0x03, byte⟩

/-- Such a console has these bytes on the line, sent or to be sent. -/
structure Console.Shows (c : Console) (ier : BitVec 8) (l : List SentByte) : Prop where
  settings_eq : c.uart.settings = serialSettings ier
  transcript_eq : c.uart.transcript = l

variable {line : LineTime} {c c' : Console} {byte ier : BitVec 8} {l : List SentByte} {rounds : ℕ}

namespace Console

theorem Shows.settings (h : c.Shows ier l) :
    ¬c.uart.dlab ∧ c.uart.divisor = 0x0003 ∧ c.uart.lcr = 0x03 := by
  have hdivisor : c.uart.divisor = 0x0003 := congrArg Uart.Settings.divisor h.settings_eq
  have hlcr : c.uart.lcr = 0x03 := congrArg Uart.Settings.lcr h.settings_eq
  refine ⟨?_, hdivisor, hlcr⟩
  rw [Uart.dlab, hlcr]
  decide

theorem Shows.arrive (h : c.Shows ier l) : Shows ⟨c.arrive line, c.clock + 1⟩ ier l where
  settings_eq := (Uart.ticks_settings _).trans h.settings_eq
  transcript_eq := (Uart.ticks_transcript _).trans h.transcript_eq

end Console

namespace SerialPort

theorem canSend_eq : com1Port.canSend line c
    = (decide ((c.arrive line).pending = []), ⟨c.arrive line, c.clock + 1⟩) := by
  have hport : (com1Port.base + 5 - com1).toNat = 5 := by decide
  rw [canSend, Console.inb, hport, Uart.inp, if_pos rfl]
  refine Prod.ext ?_ rfl
  have hstatus := Uart.lineStatus_and (c.arrive line)
  by_cases hempty : (c.arrive line).pending = []
  · simp only [hempty, decide_true, bne_iff_ne]
    exact hstatus.mpr hempty
  · simp only [hempty, decide_false]
    simpa using hstatus.not.mpr hempty

theorem put_succ : com1Port.put line byte (rounds + 1) c =
    if (c.arrive line).pending = [] then
      some ((⟨c.arrive line, c.clock + 1⟩ : Console).outb line com1 byte)
    else com1Port.put line byte rounds ⟨c.arrive line, c.clock + 1⟩ := by
  rw [put, canSend_eq]
  simp only [decide_eq_true_eq]
  rfl

theorem arrive_pending (h : c.uart.pending = []) : (c.arrive line).pending = [] := by
  have hlength : (c.arrive line).pending.length = 0 := by
    rw [Console.arrive, Uart.ticks_pending_length, h, List.length_nil, Nat.zero_sub]
  exact List.length_eq_zero_iff.mp hlength

theorem outb_shows (h : c.Shows ier l) (hempty : c.uart.pending = []) :
    (c.outb line com1 byte).Shows ier (l ++ [serialByte byte]) := by
  have harrive : Console.Shows ⟨c.arrive line, c.clock + 1⟩ ier l := h.arrive
  obtain ⟨hdata, hdivisor, hlcr⟩ := harrive.settings
  have hport : (com1 - com1).toNat = 0 := by decide
  obtain ⟨htranscript, hsettings⟩ := Uart.out_data hdata (arrive_pending hempty) byte
  rw [Console.outb, hport]
  refine ⟨hsettings.trans harrive.settings_eq, htranscript.trans ?_⟩
  have hdivisor : (c.arrive line).divisor = 0x0003 := hdivisor
  have hlcr : (c.arrive line).lcr = 0x03 := hlcr
  have hshown : (c.arrive line).transcript = l := harrive.transcript_eq
  rw [hshown, hdivisor, hlcr, serialByte]

theorem put_shows (h : c.Shows ier l) (hput : com1Port.put line byte rounds c = some c') :
    c'.Shows ier (l ++ [serialByte byte]) := by
  induction rounds generalizing c with
  | zero => cases hput
  | succ rounds ih =>
    rw [put_succ] at hput
    split_ifs at hput with hempty
    · obtain rfl := Option.some.inj hput
      exact outb_shows h.arrive hempty
    · exact ih h.arrive hput

/-- With rounds enough, the byte is put. -/
def Puts (line : LineTime) (byte : BitVec 8) (c : Console) : Prop :=
  ∃ n, ∀ rounds ≥ n, ∃ c', com1Port.put line byte rounds c = some c'

theorem puts_of_next
    (h : (c.arrive line).pending ≠ [] → Puts line byte ⟨c.arrive line, c.clock + 1⟩) :
    Puts line byte c := by
  by_cases hempty : (c.arrive line).pending = []
  · refine ⟨1, fun rounds hrounds ↦ ?_⟩
    obtain ⟨r, rfl⟩ := Nat.exists_eq_add_of_le' hrounds
    exact ⟨_, by rw [put_succ, if_pos hempty]⟩
  · obtain ⟨n, hn⟩ := h hempty
    refine ⟨n + 1, fun rounds hrounds ↦ ?_⟩
    obtain ⟨r, rfl⟩ := Nat.exists_eq_add_of_le' (Nat.le_of_add_left_le hrounds)
    obtain ⟨c', hc'⟩ := hn r (by omega)
    exact ⟨c', by rw [put_succ, if_neg hempty, hc']⟩

/-- **The loop ends**: a byte leaves every now and then, and the buffer runs empty. -/
theorem puts_of_fair (hfair : line.Fair) (byte : BitVec 8) (c : Console) : Puts line byte c := by
  -- on the bytes that wait, and then on the time until the next one leaves
  obtain ⟨n, hn⟩ : ∃ n, c.uart.pending.length = n := ⟨_, rfl⟩
  induction n using Nat.strongRecOn generalizing c with
  | ind n ih =>
    obtain ⟨k, hk⟩ := hfair c.clock
    induction k generalizing c with
    | zero =>
      refine puts_of_next fun hwait ↦ ih _ ?_ _ rfl
      have hlength : (c.arrive line).pending.length = _ := Uart.ticks_pending_length (line c.clock)
      have hpos : 0 < (c.arrive line).pending.length := List.length_pos_iff.mpr hwait
      rw [Nat.add_zero] at hk
      change (c.arrive line).pending.length < n
      omega
    | succ k ihk =>
      refine puts_of_next fun _ ↦ ?_
      have hlength : (c.arrive line).pending.length = _ := Uart.ticks_pending_length (line c.clock)
      rcases Nat.lt_or_ge (c.arrive line).pending.length n with hless | hmore
      · exact ih _ hless _ rfl
      · refine ihk ⟨c.arrive line, c.clock + 1⟩ ?_ ?_
        · change (c.arrive line).pending.length = n
          omega
        · rwa [Nat.add_assoc, Nat.add_comm 1 k]

theorem put_mono {rounds' : ℕ} (h : com1Port.put line byte rounds c = some c')
    (hle : rounds ≤ rounds') : com1Port.put line byte rounds' c = some c' := by
  induction rounds generalizing c rounds' with
  | zero => cases h
  | succ rounds ih =>
    obtain ⟨r, rfl⟩ := Nat.exists_eq_add_of_le' (Nat.le_of_add_left_le hle)
    rw [put_succ] at h ⊢
    split_ifs at h ⊢ with hempty
    · exact h
    · exact ih h (by omega)

/-- Put bytes, one after the other. -/
def putAll (line : LineTime) (rounds : ℕ) (bytes : List (BitVec 8)) (c : Console) :
    Option Console :=
  bytes.foldlM (fun c byte ↦ com1Port.put line byte rounds c) c

theorem putAll_cons {bytes : List (BitVec 8)} : putAll line rounds (byte :: bytes) c
    = (com1Port.put line byte rounds c).bind (putAll line rounds bytes) := rfl

theorem putAll_append {bytes bytes' : List (BitVec 8)} : putAll line rounds (bytes ++ bytes') c
    = (putAll line rounds bytes c).bind (putAll line rounds bytes') := by
  rw [putAll, List.foldlM_append]
  rfl

theorem writeStr_eq (s : List (BitVec 8)) :
    com1Port.writeStr line rounds s c = putAll line rounds (crlf s) c := by
  induction s generalizing c with
  | nil => rfl
  | cons a s ih =>
    have hstep : com1Port.writeStr line rounds (a :: s) c
        = (com1Port.writeByte line rounds a c).bind (com1Port.writeStr line rounds s) := rfl
    rw [hstep, crlf_cons, putAll_append, funext fun c ↦ ih (c := c)]
    congr 1
    rw [writeByte]
    split_ifs with ha
    · rw [ha, putAll_cons]
      congr 1
      funext c
      rw [putAll_cons]
      exact (Option.bind_fun_some _).symm
    · rw [putAll_cons, Option.bind_eq_bind, Option.bind_some]
      exact (Option.bind_fun_some _).symm

/-- Every text is written in the end, and shows. -/
theorem exists_putAll (hfair : line.Fair) (bytes : List (BitVec 8)) (h : c.Shows ier l) :
    ∃ c' n, c'.Shows ier (l ++ bytes.map serialByte) ∧
      ∀ rounds ≥ n, putAll line rounds bytes c = some c' := by
  induction bytes generalizing c l with
  | nil => exact ⟨c, 0, by rwa [List.map_nil, List.append_nil], fun _ _ ↦ rfl⟩
  | cons b bytes ih =>
    obtain ⟨n, hn⟩ := puts_of_fair hfair b c
    obtain ⟨c₁, hc₁⟩ := hn n (le_refl n)
    obtain ⟨c', m, hshows, hm⟩ := ih (put_shows h hc₁)
    refine ⟨c', max n m, ?_, fun rounds hrounds ↦ ?_⟩
    · rwa [List.map_cons, ← List.singleton_append, ← List.append_assoc]
    · rw [putAll_cons, put_mono hc₁ (le_trans (le_max_left n m) hrounds), Option.bind_some,
        hm rounds (le_trans (le_max_right n m) hrounds)]

end SerialPort

/-! ## The port is programmed -/

/-- The writes of `init`. -/
def initWrites : List (ℕ × BitVec 8) :=
  [(1, 0x00), (3, 0x80), (0, 0x03), (1, 0x00), (3, 0x03), (2, 0xC7), (4, 0x0B)]

/-- Write ports of the device, one after the other. -/
def writePorts (line : LineTime) (writes : List (ℕ × BitVec 8)) (c : Console) : Console :=
  writes.foldl (fun c w ↦ ⟨(c.arrive line).out w.1 w.2, c.clock + 1⟩) c

theorem init_eq (line : LineTime) (c : Console) :
    com1Port.init line c = writePorts line initWrites c := rfl

theorem writePorts_settings (writes : List (ℕ × BitVec 8)) (c : Console) :
    (writePorts line writes c).uart.settings
      = writes.foldl (fun s w ↦ s.out w.1 w.2) c.uart.settings := by
  induction writes generalizing c with
  | nil => rfl
  | cons w writes ih =>
    have hfirst : ((c.arrive line).out w.1 w.2).settings = c.uart.settings.out w.1 w.2 := by
      rw [Uart.out_settings, Console.arrive, Uart.ticks_settings]
    rw [List.foldl_cons, ← hfirst]
    exact ih _

/-- The two ports with two meanings have the right one at each write but the first: the interrupt
enable register is only reached if the divisor was not selected before. -/
theorem initWrites_settings (s : Uart.Settings) :
    initWrites.foldl (fun s w ↦ s.out w.1 w.2) s
      = serialSettings (if s.lcr.getLsbD 7 then s.ier else 0) := by
  have hdlab : (0x80 : BitVec 8).getLsbD 7 = true := by decide
  have hfifo : (0xC7 : BitVec 8).getLsbD 0 = true := by decide
  have hdivisor : ∀ high : BitVec 8, (0x00 : BitVec 8)
      ++ (high ++ (0x03 : BitVec 8)).extractLsb' 0 8 = 0x0003#16 := by decide
  simp only [initWrites, List.foldl_cons, List.foldl_nil, Uart.Settings.out, hdlab, hfifo, if_true]
  split_ifs with hlcr
  · simp only [hdivisor]
    rfl
  · simp only [hdivisor]
    rfl

/-- No write of the list is data. -/
def NoData : Uart.Settings → List (ℕ × BitVec 8) → Prop
  | _, [] => True
  | s, w :: writes => (w.1 ≠ 0 ∨ s.lcr.getLsbD 7) ∧ NoData (s.out w.1 w.2) writes

theorem noData_initWrites (s : Uart.Settings) : NoData s initWrites := by
  have hdlab : (0x80 : BitVec 8).getLsbD 7 := by decide
  exact ⟨.inl (by decide), .inl (by decide), .inr hdlab, .inl (by decide), .inl (by decide),
    .inl (by decide), .inl (by decide), trivial⟩

theorem writePorts_bytes {writes : List (ℕ × BitVec 8)} {c : Console}
    (h : NoData c.uart.settings writes) :
    (writePorts line writes c).uart.bytes <+: c.uart.bytes := by
  induction writes generalizing c with
  | nil => exact List.prefix_refl _
  | cons w writes ih =>
    have harrive : (c.arrive line).settings = c.uart.settings := Uart.ticks_settings _
    have hfirst : ((c.arrive line).out w.1 w.2).bytes <+: c.uart.bytes := by
      rw [← Uart.ticks_bytes (u := c.uart) (line c.clock)]
      have hdlab := h.1.imp_right fun hdlab ↦ (congrArg (·.lcr.getLsbD 7) harrive).trans hdlab
      exact Uart.out_bytes hdlab _
    refine (ih (c := ⟨(c.arrive line).out w.1 w.2, c.clock + 1⟩) ?_).trans hfirst
    change NoData ((c.arrive line).out w.1 w.2).settings writes
    rw [Uart.out_settings, harrive]
    exact h.2

/-- Interrupts of the device after `init`: off, unless the divisor was selected before. -/
def ierAfter (u : Uart) : BitVec 8 := if u.dlab then u.ier else 0

/-- **After `init`, from any state of the device**, the settings are right and the transmitter is
empty; what left before was written before. -/
theorem init_shows (line : LineTime) (c : Console) :
    ∃ l, (com1Port.init line c).Shows (ierAfter c.uart) l ∧
      l.map SentByte.byte <+: c.uart.bytes := by
  have hpending : (com1Port.init line c).uart.pending = [] := by
    let d := writePorts line (initWrites.take 5) c
    have hclear : ((d.arrive line).out 2 0xC7).pending = [] := if_neg fun h ↦ h.2 (by decide)
    exact SerialPort.arrive_pending (c := ⟨(d.arrive line).out 2 0xC7, d.clock + 1⟩) hclear
  refine ⟨(com1Port.init line c).uart.sent, ⟨?_, ?_⟩, ?_⟩
  · rw [init_eq, writePorts_settings, initWrites_settings]
    rfl
  · rw [Uart.transcript, hpending, List.map_nil, List.append_nil]
  · have hbytes : (writePorts line initWrites c).uart.bytes <+: c.uart.bytes :=
      writePorts_bytes (noData_initWrites c.uart.settings)
    rw [← init_eq, Uart.bytes, hpending, List.append_nil] at hbytes
    exact hbytes

/-- Write messages, one after the other. -/
def writeAll (line : LineTime) (rounds : ℕ) (messages : List (List (BitVec 8))) (c : Console) :
    Option Console :=
  messages.foldlM (fun c s ↦ com1Port.writeStr line rounds s c) c

theorem writeAll_eq (messages : List (List (BitVec 8))) :
    writeAll line rounds messages c = SerialPort.putAll line rounds (crlf messages.flatten) c := by
  induction messages generalizing c with
  | nil => rfl
  | cons s messages ih =>
    have hstep : writeAll line rounds (s :: messages) c
        = (com1Port.writeStr line rounds s c).bind (writeAll line rounds messages) := rfl
    rw [hstep, List.flatten_cons, crlf_append, SerialPort.putAll_append, SerialPort.writeStr_eq,
      funext fun c ↦ ih (c := c)]

/-- **What is written to the console arrives**: whatever the state of the device was, and however
the line behaves as long as it goes on sending, after `init` every call returns, and when the line
has caught up, it has carried the messages, each byte with the settings of `init`, in order, with a
carriage return before each line feed and nothing else behind what was written before; a reader of
lines gets the messages back. -/
theorem console_output (hfair : line.Fair) (c₀ : Console) (messages : List (List (BitVec 8))) :
    ∃ c n old, (∀ rounds ≥ n, writeAll line rounds messages (com1Port.init line c₀) = some c) ∧
      old.map SentByte.byte <+: c₀.uart.bytes ∧
      c.uart.settings = serialSettings (ierAfter c₀.uart) ∧
      (∀ k ≥ c.uart.pending.length,
        (c.uart.ticks k).sent = old ++ (crlf messages.flatten).map serialByte) ∧
      uncrlf (crlf messages.flatten) = messages.flatten := by
  obtain ⟨old, hshows, hold⟩ := init_shows line c₀
  obtain ⟨c, n, hwritten, hreturns⟩ :=
    SerialPort.exists_putAll hfair (crlf messages.flatten) hshows
  refine ⟨c, n, old, fun rounds hrounds ↦ ?_, hold, hwritten.settings_eq, fun k hk ↦ ?_,
    uncrlf_crlf _⟩
  · rw [writeAll_eq, hreturns rounds hrounds]
  · rw [Uart.ticks_sent hk, hwritten.transcript_eq]

/-- A line that gets free at every third access. -/
def everyThird : LineTime := fun t ↦ if t % 3 = 0 then 1 else 0

theorem fair_everyThird : everyThird.Fair := by
  intro t
  refine ⟨2 * t, ?_⟩
  rw [everyThird, if_pos (by omega)]
  exact Nat.one_pos

/-- A device that was left with the divisor selected: its interrupts stay on. -/
theorem console_output_hello : let u : Uart := ⟨0x0F, 0x83, 0, 1, false, [], []⟩
    ∃ c n k, (∀ rounds ≥ n, writeAll everyThird rounds [[0x48, 0x69], [0x0A]]
        (com1Port.init everyThird ⟨u, 0⟩) = some c) ∧
      c.uart.ier = 0x0F ∧
      (c.uart.ticks k).sent = [0x48, 0x69, 0x0D, 0x0A].map serialByte := by
  intro u
  obtain ⟨c, n, old, hreturns, hold, hsettings, hsent, -⟩ :=
    console_output fair_everyThird ⟨u, 0⟩ [[0x48, 0x69], [0x0A]]
  obtain rfl : old = [] := List.map_eq_nil_iff.mp (List.prefix_nil.mp hold)
  have hier : ierAfter u = 0x0F := by decide
  exact ⟨c, n, _, hreturns, (congrArg Uart.Settings.ier hsettings).trans hier,
    hsent _ (Nat.le_refl _)⟩

end Zeroxos
