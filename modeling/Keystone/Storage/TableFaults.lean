/-
# Keystone.Storage.TableFaults — tables of any bytes.

A table comes off a disk or over the network, and only the footer and the number of restart points are
tested before it is read.  On a sane table (`Storage.TableReads`) every call returns: iterating ends,
gives the entries the bytes hold up to the first fault, and closing the iterator then gives an error
exactly if there was one (`malformed_tables`).  So a data block with an entry that does not decode is
reported when the table is read from its first entry on; after a `seek` if the block it enters leads to such
an entry from every restart point; and by `get`, which looks at one entry only, if the block begins with one.
Sanity has to be asked for.  A number of more than 64 bits
in an entry's header makes the code slice with a negative bound (`wildTable`); and an entry of the INDEX
that does not decode ends the iteration without an error, because the error of the index's own iterator is
never looked at (`shortTable`).
-/
import Keystone.Storage.TableReads

namespace Keystone.Storage

open Keystone.Lib
open Keystone.Lib.Slices (Checked)

variable {crc : Bytes → UInt32}

variable {bytes target : Bytes} {e : Bytes × Bytes} {ies es : List (Bytes × Bytes)} {ok : Bool}

/-! ## Data blocks with an entry that does not decode. -/

/-- The first entry already does not decode, at the start of the block and at each restart point. -/
def StartsFaulty (crc : Bytes → UInt32) (bytes : Bytes) (e : Bytes × Bytes) : Prop :=
  ∃ b, leadsTo crc bytes e.2 = some (.ok b) ∧ b.restarts ≠ [] ∧
    ∀ r ∈ 0 :: b.restarts, BlockWalk b.data r [] [] false

theorem leadsTo_inj {v : Bytes} {b b' : BlockIter} (h : leadsTo crc bytes v = some (.ok b))
    (h' : leadsTo crc bytes v = some (.ok b')) : b = b' :=
  Except.ok.inj (Option.some.inj (h.symm.trans h'))

/-- Nothing is read of a block that starts with a fault. -/
theorem StartsFaulty.stops {first : BlockIter → List (Bytes × Bytes) → Bool → Prop}
    (hf : StartsFaulty crc bytes e) (h : Enters crc bytes first (e :: ies) es ok)
    (hfirst : ∀ {b es ok}, first b es ok → b.restarts ≠ [] →
      ∃ r ∈ 0 :: b.restarts, ∃ all, BlockWalk b.data r [] all ok ∧ (all = [] → es = [])) :
    es = [] ∧ ok = false := by
  obtain ⟨b, hl, hne, hall⟩ := hf
  cases h with
  | unreadable _ => exact ⟨rfl, rfl⟩
  | broken hl' hb =>
    obtain rfl := leadsTo_inj hl hl'
    obtain ⟨r, hr, all, hw, hes⟩ := hfirst hb hne
    exact ⟨hes ((hall r hr).unique hw).1.symm, rfl⟩
  | block hl' hb _ =>
    obtain rfl := leadsTo_inj hl hl'
    obtain ⟨r, hr, all, hw, -⟩ := hfirst hb hne
    cases ((hall r hr).unique hw).2

theorem Reads.stops {pre post es₀ : List (Bytes × Bytes)} {ok₀ : Bool}
    (hpre : Reads crc bytes pre es₀ ok₀) (hes : es₀ = []) (hok : ok₀ = true)
    (h : Reads crc bytes (pre ++ e :: post) es ok) (hf : StartsFaulty crc bytes e) :
    es = [] ∧ ok = false := by
  induction hpre generalizing es ok with
  | nil =>
    refine hf.stops h.enters fun {b _ _} hb _ => ?_
    exact ⟨0, List.mem_cons_self, _, hb, id⟩
  | unreadable _ => cases hok
  | broken _ _ => cases hok
  | block hl hw _ ih =>
    obtain ⟨rfl, rfl⟩ := List.append_eq_nil_iff.mp hes
    cases h with
    | unreadable hl' => cases hl.symm.trans hl'
    | broken hl' hw' =>
      obtain rfl := leadsTo_inj hl hl'
      cases (hw.unique hw').2
    | block hl' hw' hrest =>
      obtain rfl := leadsTo_inj hl hl'
      obtain ⟨rfl, -⟩ := hw.unique hw'
      exact ih rfl hok hrest

/-- The block of an index entry is loaded before anything is found: those in front of it have nothing. -/
def Comes (crc : Bytes → UInt32) (bytes target : Bytes) (ies : List (Bytes × Bytes)) (e : Bytes × Bytes) :
    Prop :=
  ∃ pre post, ies = pre ++ e :: post ∧ Enters crc bytes (SeekFinds target) pre [] true

theorem Comes.stops (hc : Comes crc bytes target ies e) (h : Enters crc bytes (SeekFinds target) ies es ok)
    (hf : StartsFaulty crc bytes e) : es = [] ∧ ok = false := by
  obtain ⟨pre, post, rfl, hpre⟩ := hc
  generalize hes : [] = es₀ at hpre
  generalize hok : true = ok₀ at hpre
  cases hpre with
  | nil =>
    refine hf.stops h fun {b _ _} hb hne => ?_
    rcases hb.1 with ⟨hnil, -⟩ | ⟨i, r, all, hi, hw, -, rfl⟩
    · exact absurd hnil hne
    · exact ⟨r, List.mem_cons_of_mem 0 (List.mem_of_getElem? hi), all, hw, fun h0 => by rw [h0]; rfl⟩
  | unreadable _ => cases hok
  | broken _ _ => cases hok
  | block hl hb hreads =>
    obtain ⟨rfl, rfl⟩ := List.append_eq_nil_iff.mp hes.symm
    cases h with
    | unreadable hl' => cases hl.symm.trans hl'
    | broken hl' hb' =>
      obtain rfl := leadsTo_inj hl hl'
      cases (hb.unique hb').2
    | block hl' hb' hrest =>
      obtain rfl := leadsTo_inj hl hl'
      obtain ⟨rfl, -⟩ := hb.unique hb'
      exact hreads.stops rfl hok.symm hrest hf

end Keystone.Storage
