import ExampleEngine.Handler.Fetch
import ExampleEngine.Index.Session

/-!
# Requests on a table

Library `Handler`. Runs of requests of the server on a table that was just created and
opened, on platforms without failures. The server fills record buffers in between.
-/

namespace ExampleEngine.Handler

open ExampleEngine.Base ExampleEngine.Storage ExampleEngine.Index

/-- What the server asks of the handler, or does to what they share. -/
inductive Request where
  | writeRow (buf : Nat)
  | updateRow (old new : Nat)
  | deleteRow (buf : Nat)
  /-- `index_init` of the server's class sets `active_index`. -/
  | indexInit (i : Nat)
  | indexRead (buf : Nat) (key : Key) (findFlag : HaRkeyFunction)
  | indexNext (buf : Nat)
  | indexPrev (buf : Nat)
  | indexFirst (buf : Nat)
  | indexLast (buf : Nat)
  | rndInit
  | rndEnd
  | rndNext (buf : Nat)
  | rndPos (buf : Nat) (pos : Key)
  | position (buf : Nat)
  | info
  | extra (operation : HaExtraFunction)
  /-- The server stores a record in a buffer. -/
  | fill (buf : Nat) (r : Record)
  /-- The server sets or clears `table->next_number_field`. -/
  | number (b : Bool)

namespace Request

variable (share : TableShare) (server : Server)

/-- Make a request. -/
def perform : Request → HandlerM Int
  | .writeRow buf => HaExample.writeRow share server buf
  | .updateRow old new => HaExample.updateRow share server old new
  | .deleteRow buf => HaExample.deleteRow share buf
  | .indexInit i => do
    modify fun s ↦ { s with activeIndex := i }
    return 0
  | .indexRead buf key findFlag => HaExample.indexRead share server buf key findFlag
  | .indexNext buf => HaExample.indexNext share server buf
  | .indexPrev buf => HaExample.indexPrev share server buf
  | .indexFirst buf => HaExample.indexFirst share server buf
  | .indexLast buf => HaExample.indexLast share server buf
  | .rndInit => HaExample.rndInit
  | .rndEnd => HaExample.rndEnd
  | .rndNext buf => HaExample.rndNext share server buf
  | .rndPos buf pos => HaExample.rndPos share buf pos
  | .position buf => do
    HaExample.position share buf
    return 0
  | .info => do
    let _ ← HaExample.info
    return 0
  | .extra operation => HaExample.extra operation
  | .fill buf r => do
    modify fun s ↦ { s with record := Function.update s.record buf r }
    return 0
  | .number b => do
    modify fun s ↦ { s with nextNumberField := b }
    return 0

/-- The cursor of the active index stands on an entry. -/
def Positioned (s : HaExample) : Prop :=
  if s.activeIndex = 0 then ∃ e, Stands s.pBtree s.primaryIt e
  else ∃ e, Stands s.secondTree s.secIt e

/-- The server moves on only from where a cursor stands, within the indexes of the table. -/
def Admissible (s : HaExample) : Request → Prop
  | .indexInit i => i < share.keys
  | .indexNext _ => Positioned s
  | .indexPrev _ => Positioned s
  | .rndNext _ => s.firstRow = true ∨ Positioned s
  | .rndPos _ pos => share.PrimaryKey pos
  | _ => True

/-- Requests that change rows. -/
def ChangesRows : Request → Prop
  | .writeRow _ => True
  | .updateRow _ _ => True
  | .deleteRow _ => True
  | _ => False

/-- Requests that read a row, or the columns of an index, into a buffer. -/
def Reads (buf : Nat) : Request → Prop
  | .indexRead b _ _ => b = buf
  | .indexNext b => b = buf
  | .indexPrev b => b = buf
  | .indexFirst b => b = buf
  | .indexLast b => b = buf
  | .rndNext b => b = buf
  | .rndPos b _ => b = buf
  | _ => False

end Request

/-- A handler before `open`, on files that `create` wrote; `src/ha_example.cc:1346–1380`. -/
structure Created (share : TableShare) (s : HaExample) : Prop where
  primary : ∃ platform file, platform.Reliable ∧
    s.pBtree = BTree.unopened platform (BTree.create share.primary file)
  second : if share.keys > 1 then ∃ platform file, platform.Reliable ∧
      s.sBtree = some (BTree.unopened platform (BTree.create share.second file))
    else s.sBtree = none
  keyBuffer : s.keyBuffer.length = share.primaryKeyLength + share.maxSecondKeyLength + 1
  active : s.activeIndex < share.keys

/-- The states of a table that requests lead to. -/
inductive Served (share : TableShare) (server : Server) : HaExample → Prop
  | opened (s₀ s : HaExample) (hc : Created share s₀)
      (h : (HaExample.openTable share).run s₀ = .ok (0, s)) : Served share server s
  | step (s s' : HaExample) (req : Request) (code : Int) (hs : Served share server s)
      (ha : req.Admissible share s) (h : (req.perform share server).run s = .ok (code, s')) :
      Served share server s'

section Invariant

variable {share : TableShare} {server : Server} {s s' : HaExample} {E : Fault → Prop}

/-- A table just opened is in order and empty. -/
theorem Created.wp_openTable (hc : Created share s) :
    wp E (HaExample.openTable share) (fun code s' ↦ code = 0 ∧ Opened share s' ∧
      s'.pBtree.live = [] ∧ s'.entries = [] ∧ s'.pBtree.items = 0 ∧
      s'.secondTree.slots = []) s := by
  obtain ⟨platform, file, hp, hpb⟩ := hc.primary
  have hlive : ∀ t : BTree Key, t.slots = [] → t.live = [] := by
    intro t ht
    unfold BTree.live
    rw [ht]
    rfl
  unfold HaExample.openTable
  rw [wp_bind, wp_onPrimary, hpb]
  refine wp_mono (BTree.wp_created (S := share.PrimaryKey) file share.primary_wide hp) ?_
  rintro r t ⟨rfl, hv, hnil, hitems⟩
  rw [if_neg (by decide)]
  have hsec := hc.second
  by_cases hkeys : share.keys > 1
  · rw [if_pos hkeys] at hsec
    obtain ⟨platform', file', hp', hsb⟩ := hsec
    rw [if_pos hkeys, wp_bind, wp_onSecond]
    simp only [hsb]
    refine wp_mono (BTree.wp_created (S := share.EntryKey) file' share.second_wide hp') ?_
    rintro r' t' ⟨rfl, hv', hnil', _⟩
    rw [if_neg (by decide), wp_pure]
    refine ⟨rfl, ⟨hv, (decide_eq_true hkeys).symm, fun t'' ht'' ↦ ?_,
      Nat.le_of_eq hc.keyBuffer.symm, hc.active⟩, hlive _ hnil, hlive _ hnil', hitems, hnil'⟩
    cases ht''
    exact hv'
  · rw [if_neg hkeys] at hsec
    rw [if_neg hkeys, wp_pure]
    refine ⟨rfl, ⟨hv, ?_, fun t'' ht'' ↦ ?_, Nat.le_of_eq hc.keyBuffer.symm, hc.active⟩,
      hlive _ hnil, hlive _ ?_, hitems, ?_⟩
    · simp [hsec, hkeys]
    · rw [hsec] at ht''
      cases ht''
    all_goals
      unfold HaExample.secondTree
      rw [hsec]
      rfl

/-- Moving on along a secondary index. -/
theorem Opened.wp_advance_second (h : Opened share s) (ord : share.Ordered)
    (h1 : 1 ≤ s.activeIndex) {e : Slot Key} (hst : Stands s.secondTree s.secIt e) {buf : Nat}
    {back : Bool} {err : Int} (herr : err ≠ 0) {Q : Int → HaExample → Prop}
    (hQ : ∀ code s', Opened share s' → OnlyCursors s s' → Looks s s' →
      MoveOutcome share s buf err ((if back then IterFlag.BEFROE_KEY else .AFTER_KEY).search
        share.secondKeyCompare e.key s.entries) code s' → Q code s') :
    wp E (HaExample.moveIndex share server (Iterator.advance back) err buf) Q s := by
  have hkeys := h.active
  obtain ⟨_, hv⟩ := h.exists_second (by omega)
  exact h.wp_moveIndex_second ord h1 herr _ (fun e he ↦ (IterFlag.of_search he).1)
    (hv.wp_advance ord.second hst) hQ

/-- Starting at an end of a secondary index. -/
theorem Opened.wp_start_second (h : Opened share s) (ord : share.Ordered)
    (h1 : 1 ≤ s.activeIndex) {buf : Nat} {back : Bool} {err : Int} (herr : err ≠ 0)
    {Q : Int → HaExample → Prop}
    (hQ : ∀ code s', Opened share s' → OnlyCursors s s' → Looks s s' →
      MoveOutcome share s buf err (s.secondTree.liveFrom back).head? code s' → Q code s') :
    wp E (HaExample.moveIndex share server (Iterator.start back) err buf) Q s := by
  have hkeys := h.active
  obtain ⟨_, hv⟩ := h.exists_second (by omega)
  exact h.wp_moveIndex_second ord h1 herr _ (fun e he ↦ BTree.mem_live_of_head he) hv.wp_start hQ

/-- Moving on along the active index. -/
theorem Opened.wp_advance (h : Opened share s) (ord : share.Ordered)
    (hpos : Request.Positioned s) {buf : Nat} {back : Bool} {err : Int} (herr : err ≠ 0)
    {Q : Int → HaExample → Prop}
    (hQ : ∀ code s', Opened share s' → Looks s s' → Fetches share s buf code s' → Q code s') :
    wp E (HaExample.moveIndex share server (Iterator.advance back) err buf) Q s := by
  unfold Request.Positioned at hpos
  by_cases h0 : s.activeIndex = 0
  · rw [if_pos h0] at hpos
    obtain ⟨e, hst⟩ := hpos
    exact h.wp_moveIndex_primary h0 herr _ (fun e he ↦ (IterFlag.of_search he).1)
      (h.primary.wp_advance ord.primary hst) fun code s' ho _ hl hout ↦
        hQ code s' ho hl (hout.fetches herr)
  · rw [if_neg h0] at hpos
    obtain ⟨e, hst⟩ := hpos
    have h1 : 1 ≤ s.activeIndex := by omega
    exact h.wp_advance_second ord h1 hst herr fun code s' ho _ hl hout ↦
      hQ code s' ho hl (hout.fetches herr h1)

/-- Starting at an end of the active index. -/
theorem Opened.wp_start (h : Opened share s) (ord : share.Ordered) {buf : Nat} {back : Bool}
    {err : Int} (herr : err ≠ 0) {Q : Int → HaExample → Prop}
    (hQ : ∀ code s', Opened share s' → Looks s s' → Fetches share s buf code s' → Q code s') :
    wp E (HaExample.moveIndex share server (Iterator.start back) err buf) Q s := by
  by_cases h0 : s.activeIndex = 0
  · exact h.wp_moveIndex_primary h0 herr _ (fun e he ↦ BTree.mem_live_of_head he)
      h.primary.wp_start fun code s' ho _ hl hout ↦ hQ code s' ho hl (hout.fetches herr)
  · have h1 : 1 ≤ s.activeIndex := by omega
    exact h.wp_start_second ord h1 herr fun code s' ho _ hl hout ↦
      hQ code s' ho hl (hout.fetches herr h1)

/-- A request keeps the invariant; only row operations change rows and entries, and reads fetch
rows. -/
theorem Opened.wp_perform (h : Opened share s) (ord : share.Ordered) {req : Request}
    (ha : req.Admissible share s) :
    wp Beyond (req.perform share server) (fun code s' ↦ Opened share s' ∧
      (¬ req.ChangesRows → Looks s s') ∧ ∀ buf, req.Reads buf → Fetches share s buf code s') s := by
  have hread : ∀ buf, (∀ b, req.Reads b → b = buf) → ∀ (code : Int) (s' : HaExample),
      Opened share s' → Looks s s' → Fetches share s buf code s' → Opened share s' ∧
      (¬ req.ChangesRows → Looks s s') ∧ ∀ b, req.Reads b → Fetches share s b code s' :=
    fun buf hbuf _ _ ho hl hf ↦ ⟨ho, fun _ ↦ hl, fun b hb ↦ hbuf b hb ▸ hf⟩
  have hlooks : (∀ b, ¬ req.Reads b) → ∀ (code : Int) (s' : HaExample), Opened share s' →
      Looks s s' → Opened share s' ∧ (¬ req.ChangesRows → Looks s s') ∧
      ∀ b, req.Reads b → Fetches share s b code s' :=
    fun hno _ _ ho hl ↦ ⟨ho, fun _ ↦ hl, fun b hb ↦ absurd hb (hno b)⟩
  cases req with
  | writeRow buf =>
    refine wp_writeRow ord h (fun code s' _ ho _ ↦ ⟨ho, fun hn ↦ absurd trivial hn, nofun⟩) ?_
    exact fun code s' _ ho _ _ ↦ ⟨ho, fun hn ↦ absurd trivial hn, nofun⟩
  | updateRow old new =>
    exact wp_updateRow ord h fun code s' ho _ ↦ ⟨ho, fun hn ↦ absurd trivial hn, nofun⟩
  | deleteRow buf =>
    exact wp_deleteRow ord h fun code s' ho _ _ ↦ ⟨ho, fun hn ↦ absurd trivial hn, nofun⟩
  | indexRead buf key findFlag =>
    have hreads := hread buf fun b hb ↦ hb.symm
    by_cases h0 : s.activeIndex = 0
    · exact h.wp_indexRead_primary ord h0 fun code s' ho _ hl hf ↦ hreads code s' ho hl hf
    · exact h.wp_indexRead_second ord (by omega) fun code s' ho _ hl hout ↦
        hreads code s' ho hl (hout.fetches findFlag.err_ne_zero (by omega))
  | indexNext buf =>
    have ha : Request.Positioned s := ha
    change wp Beyond (HaExample.moveIndex share server (Iterator.advance false) _ buf) _ s
    exact h.wp_advance ord ha (by decide) (hread buf fun b hb ↦ hb.symm)
  | indexPrev buf =>
    have ha : Request.Positioned s := ha
    change wp Beyond (HaExample.moveIndex share server (Iterator.advance true) _ buf) _ s
    exact h.wp_advance ord ha (by decide) (hread buf fun b hb ↦ hb.symm)
  | indexFirst buf =>
    change wp Beyond (HaExample.moveIndex share server (Iterator.start false) _ buf) _ s
    exact h.wp_start ord (by decide) (hread buf fun b hb ↦ hb.symm)
  | indexLast buf =>
    change wp Beyond (HaExample.moveIndex share server (Iterator.start true) _ buf) _ s
    exact h.wp_start ord (by decide) (hread buf fun b hb ↦ hb.symm)
  | rndNext buf =>
    have hreads := hread buf fun b hb ↦ hb.symm
    change wp Beyond (HaExample.rndNext share server buf) _ s
    unfold HaExample.rndNext
    rw [wp_bind, wp_get]
    by_cases hf : s.firstRow = true
    · rw [if_pos hf, wp_bind, wp_modify]
      have ho : Opened share { s with firstRow := false } := { h with }
      change wp Beyond (HaExample.moveIndex share server (Iterator.start false) _ buf) _ _
      exact ho.wp_start ord (by decide) fun code s' ho' hl hfetch ↦
        hreads code s' ho' ⟨hl.primary, hl.second⟩ hfetch
    · rw [if_neg hf]
      have ha : s.firstRow = true ∨ Request.Positioned s := ha
      change wp Beyond (HaExample.moveIndex share server (Iterator.advance false) _ buf) _ s
      exact h.wp_advance ord (ha.resolve_left hf) (by decide) hreads
  | rndPos buf pos =>
    exact h.wp_rndPos ord ha fun code s' ho _ hl hout ↦
      hread buf (fun b hb ↦ hb.symm) code s' ho hl hout.fetches
  | info =>
    change wp Beyond (HaExample.info >>= fun _ ↦ pure 0) _ s
    unfold HaExample.info
    rw [wp_bind, wp_onPrimary]
    refine wp_mono h.primary.wp_countOfItems ?_
    rintro _ t ⟨rfl, _⟩
    exact hlooks (fun _ ↦ id) 0 s h (.refl s)
  | extra operation =>
    cases operation <;> exact hlooks (fun _ ↦ id) 0 _ { h with } ⟨.refl _, .refl _⟩
  | indexInit i => exact hlooks (fun _ ↦ id) 0 _ { h with active := ha } ⟨.refl _, .refl _⟩
  | rndInit =>
    exact hlooks (fun _ ↦ id) 0 _ { h with active := share.keys_pos } ⟨.refl _, .refl _⟩
  | _ => exact hlooks (fun _ ↦ id) 0 _ { h with } ⟨.refl _, .refl _⟩

/-- Every state of a table is in order. -/
theorem Served.isOpened (ord : share.Ordered) (hs : Served share server s) : Opened share s := by
  induction hs with
  | opened s₀ s hc h =>
    have := wp_ok (hc.wp_openTable (E := Beyond)) h
    exact this.2.1
  | step s s' req code hs ha h ih =>
    have := wp_ok (ih.wp_perform ord ha) h
    exact this.1

end Invariant

/-- Requests one after another, with their codes. -/
def Request.performAll (share : TableShare) (server : Server) : List Request → HandlerM (List Int)
  | [] => return []
  | req :: reqs => do
    let code ← req.perform share server
    let codes ← performAll share server reqs
    return code :: codes

/-- Requests that are always admissible lead on. -/
theorem Served.requests {share : TableShare} {server : Server} {s s' : HaExample}
    {reqs : List Request} {codes : List Int} (hs : Served share server s)
    (ha : ∀ req ∈ reqs, ∀ s, req.Admissible share s)
    (h : (Request.performAll share server reqs).run s = .ok (codes, s')) :
    Served share server s' := by
  have hall : wp (fun _ ↦ True) (Request.performAll share server reqs)
      (fun _ s' ↦ Served share server s') s := by
    clear h
    induction reqs generalizing s with
    | nil => exact hs
    | cons req reqs ih =>
      unfold Request.performAll
      rw [wp_bind]
      unfold wp
      cases hrun : (req.perform share server).run s with
      | error e => trivial
      | ok p =>
        obtain ⟨code, s₁⟩ := p
        have hs₁ := hs.step s s₁ req code (ha req (by simp) s) hrun
        have := ih hs₁ fun r hr ↦ ha r (by simp [hr])
        change wp _ (Request.performAll share server reqs >>= fun codes ↦
          pure (code :: codes)) _ s₁
        rw [wp_bind]
        exact this
  have := wp_ok hall h
  exact this

section Digits

/-- A column of one byte in a key, compared as a number. -/
def digitPart (i : Nat) : KeyPartInfo where
  nullBit := 0
  nullOffset := 0
  offset := i
  length := 1
  storeLength := 1
  blobPart := false
  varLengthPart := false
  keyCmp a b := ((a.headD 0).toNat : Int) - (b.headD 0).toNat
  storeLength_eq := rfl

/-- A column of one byte. -/
def digitField (i : Nat) : Field where
  nullOffset := 0
  nullBit := 0
  offset := i
  pack r offset := [r.bytes offset]
  unpack r offset p := ({ r with bytes := Function.update r.bytes offset (p 0) }, 1)
  getLength _ := 0

/-- A table of three columns of one byte with an index on each. -/
def digits : TableShare where
  keys := 3
  keyInfo i := ⟨1, 1, [digitPart i], by simp, rfl, by decide⟩
  field := [digitField 0, digitField 1, digitField 2]
  blobField := []
  nullBytes := 0
  reclength := 3
  keys_pos := by decide
  keys_le := by decide

theorem digits_ordered : digits.Ordered := by
  intro i _ p hp
  obtain rfl : p = digitPart i := by simpa [digits, KeyInfo.parts] using hp
  exact .sub _

/-- A record of such a table. -/
def digitRecord (a b c : UInt8) : Record := ⟨fun i ↦ [a, b, c].getD i 0, fun _ ↦ []⟩

/-- A server that has memory and numbers no records. -/
def lenient : Server where
  malloc _ _ := true
  updateAutoIncrement _ r := (0, r)
  keyRestore r _ _ _ := r

/-- The table before it is opened. -/
def newTable : HaExample where
  record _ := digitRecord 0 0 0
  nextNumberField := false
  calls := 0
  bufSize := 0
  recordBuffer := false
  ref := []
  keyBuffer := [0, 0, 0]
  pBtree := BTree.unopened steady
    (BTree.create digits.primary fun _ ↦ .raw ⟨.free, 0, 0, 0⟩ fun _ ↦ 0)
  sBtree := some
    (BTree.unopened steady (BTree.create digits.second fun _ ↦ .raw ⟨.free, 0, 0, 0⟩ fun _ ↦ 0))
  primaryIt := ⟨none, 0⟩
  secIt := ⟨none, 0⟩
  activeIndex := 0
  firstRow := false
  keyRead := false

/-- What a run that comes to its end returns. -/
def answers {α : Type} (run : Except Fault (α × HaExample)) : Option α :=
  match run with
  | .ok (a, _) => some a
  | .error _ => none

/-- The table after a run that comes to its end. -/
def outcome {α : Type} (run : Except Fault (α × HaExample)) : HaExample :=
  match run with
  | .ok (_, s) => s
  | .error _ => newTable

theorem run_of_answers {α : Type} {run : Except Fault (α × HaExample)} {a : α}
    (h : answers run = some a) : run = .ok (a, outcome run) := by
  cases run with
  | error e => cases h
  | ok p => cases h; rfl

/-- The table after it is opened. -/
def openedTable : HaExample := outcome ((HaExample.openTable digits).run newTable)

theorem newTable_created : Created digits newTable :=
  ⟨⟨steady, _, steady_reliable, rfl⟩, ⟨steady, _, steady_reliable, rfl⟩, rfl, by decide⟩

theorem newTable_opened : (HaExample.openTable digits).run newTable = .ok (0, openedTable) :=
  run_of_answers (by decide +kernel)

theorem openedTable_served : Served digits lenient openedTable :=
  .opened newTable openedTable newTable_created newTable_opened

/-- The requests that store a row. -/
def store (a b c : UInt8) : List Request := [.fill 0 (digitRecord a b c), .writeRow 0]

/-- The table after two rows are stored. -/
def filledTable : HaExample :=
  outcome ((Request.performAll digits lenient (store 1 5 7 ++ store 2 4 8)).run openedTable)

theorem filledTable_run : (Request.performAll digits lenient (store 1 5 7 ++ store 2 4 8)).run
    openedTable = .ok ([0, 0, 0, 0], filledTable) := run_of_answers (by decide +kernel)

theorem openedTable_next : openedTable.nextNumberField = false := by decide +kernel

theorem filledTable_served : Served digits lenient filledTable := by
  refine openedTable_served.requests ?_ filledTable_run
  intro req hmem s
  simp only [store, List.cons_append, List.nil_append, List.mem_cons, List.not_mem_nil,
    or_false] at hmem
  obtain rfl | rfl | rfl | rfl := hmem <;> trivial

-- statements about these tables are not to be evaluated while they are elaborated
attribute [irreducible] openedTable filledTable

end Digits

end ExampleEngine.Handler
