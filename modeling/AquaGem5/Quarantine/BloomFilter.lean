import AquaGem5.Lib.Hits
import AquaGem5.Quarantine.FunctionalCache

/-!
# The counting Bloom filter (CountingBloomFilter)

After adds and deletes the entries are the loads of the multiset that is left, for any hash function: a `del`
decrements what the `add` incremented, and its test for zero never holds for a member.
-/

namespace AquaGem5.Quarantine.CountingBloomFilter
open Checked Hits List Nat

/-- The statistics are not initialised. -/
def construct (numEntries numHashes : ℕ) (rqHash : ℕ → UInt64 × UInt64)
    (memory : UInt64 × UInt64 × UInt64) : CountingBloomFilter where
  numHashes := numHashes
  numEntries := numEntries
  entries := .calloc numEntries 0
  rqHash := rqHash
  sTruePositives := memory.1
  sFalsePositives := memory.2.1
  sTrueNegatives := memory.2.2

inductive Call where
  | add (rowAddr : ℕ)
  | del (rowAddr : ℕ)
  deriving DecidableEq

def perform (f : CountingBloomFilter) : Call → Except Fault CountingBloomFilter
  | .add rowAddr => f.add rowAddr
  | .del rowAddr => f.del rowAddr

def run (f : CountingBloomFilter) (calls : List Call) : Except Fault CountingBloomFilter :=
  calls.foldlM perform f

def slot (f : CountingBloomFilter) (rowAddr n : ℕ) : ℕ :=
  ((f.rqHash rowAddr).1+UInt64.ofNat n*(f.rqHash rowAddr).2).toNat%f.numEntries

def holding (f : CountingBloomFilter) (rows : Multiset ℕ) : CountingBloomFilter :=
  {f with entries := ⟨f.numEntries,load f.slot f.numHashes rows⟩}

def Call.apply : Call → Multiset ℕ → Multiset ℕ
  | .add rowAddr,rows => rowAddr ::ₘ rows
  | .del rowAddr,rows => rows.erase rowAddr

def members (calls : List Call) (rows : Multiset ℕ) : Multiset ℕ :=
  calls.foldl (fun rows call => call.apply rows) rows

/-- `del` is called of members only, and `p` holds of the multiset at every moment. -/
def Along (p : Multiset ℕ → Prop) : Multiset ℕ → List Call → Prop
  | rows,[] => p rows
  | rows,.add rowAddr::calls => p rows ∧ Along p (rowAddr ::ₘ rows) calls
  | rows,.del rowAddr::calls => p rows ∧ rowAddr∈rows ∧ Along p (rows.erase rowAddr) calls

/-- Fewer than 2^32 pairs of an element and a hash index on every entry. -/
def Fits (f : CountingBloomFilter) (rows : Multiset ℕ) : Prop :=
  ∀ i,load f.slot f.numHashes rows i<2^32

variable {f : CountingBloomFilter} {rows : Multiset ℕ}

theorem nthHash_eq (f : CountingBloomFilter) (hentries : 0<f.numEntries) (rowAddr n : ℕ) :
    nthHash n (f.rqHash rowAddr).1 (f.rqHash rowAddr).2 f.numEntries = .ok (f.slot rowAddr n) := by
  rw [nthHash,umod,if_neg (by omega)]
  rfl

theorem slot_lt (hentries : 0<f.numEntries) (rowAddr n : ℕ) :
    f.slot rowAddr n<f.numEntries := Nat.mod_lt _ hentries

theorem hashRange_succ (f : CountingBloomFilter) (rowAddr n fuel i : ℕ) :
    (List.range' n (fuel+1)).countP (fun k => decide (f.slot rowAddr k=i)) =
      (List.range' (n+1) fuel).countP (fun k => decide (f.slot rowAddr k=i)) +
        if f.slot rowAddr n=i then 1 else 0 := by
  rw [range'_succ,countP_cons]
  simp only [decide_eq_true_eq]

theorem updateEntries_eq (change : ℕ → ℕ) (hentries : 0<f.numEntries)
    (hsize : f.entries.size=f.numEntries) (rowAddr fuel n : ℕ) :
    f.updateEntries change rowAddr fuel n = .ok {f with entries := ⟨f.entries.size,fun i =>
      change^[(List.range' n fuel).countP fun k => decide (f.slot rowAddr k=i)]
        (f.entries.get i)⟩} := by
  induction fuel generalizing f n with
  | zero => rfl
  | succ fuel ih =>
    have hread : (f.entries.read (f.slot rowAddr n) : Except Fault ℕ) =
        .ok (f.entries.get (f.slot rowAddr n)) := Cells.read_of_lt _ (hsize ▸ slot_lt hentries _ _)
    have hrest:=ih (f := {f with
      entries := f.entries.set (f.slot rowAddr n) (change (f.entries.get (f.slot rowAddr n)))})
      hentries hsize (n+1)
    simp only [updateEntries,nthHash_eq f hentries,hread,bind,Except.bind]
    rw [hrest]
    refine congrArg (fun get => Except.ok {f with entries := ⟨f.entries.size,get⟩})
      (funext fun i => ?_)
    rw [hashRange_succ]
    by_cases hi : f.slot rowAddr n=i
    · subst hi
      rw [if_pos rfl,Function.iterate_succ_apply,Cells.get_set_self]
      rfl
    · rw [if_neg hi,Nat.add_zero,Cells.get_set_ne _ _ (Ne.symm hi)]
      rfl

theorem iterate_inc32 (k : ℕ) {v : ℕ} (hv : v<2^32) : inc32^[k] v=(v+k)%2^32 := by
  induction k generalizing v with
  | zero => exact (Nat.mod_eq_of_lt hv).symm
  | succ k ih =>
    have hstep : inc32 v<2^32 := mod_lt _ (by decide)
    rw [Function.iterate_succ_apply,ih hstep,inc32]
    omega

theorem iterate_dec32 {k v : ℕ} (hk : k≤v) (hv : v<2^32) :
    (fun count => if count=0 then 0 else dec32 count)^[k] v=v-k := by
  induction k generalizing v with
  | zero => rfl
  | succ k ih =>
    rw [Function.iterate_succ_apply,if_neg (by omega),dec32_of_pos (by omega) hv,
      ih (by omega) (by omega)]
    omega

theorem hits_eq (f : CountingBloomFilter) (rowAddr i : ℕ) :
    (List.range' 0 f.numHashes).countP (fun k => decide (f.slot rowAddr k=i)) =
      hits f.slot f.numHashes rowAddr i := by
  rw [hits,range_eq_range']

theorem ok_entries {f : CountingBloomFilter} {get get' : ℕ → ℕ} (h : ∀ i,get i=get' i) :
    (.ok {f with entries := ⟨f.numEntries,get⟩} : Except Fault CountingBloomFilter) =
      .ok {f with entries := ⟨f.numEntries,get'⟩} := by
  rw [funext h]

theorem add_holding (hentries : 0<f.numEntries) (rowAddr : ℕ) (hfits : f.Fits (rowAddr ::ₘ rows)) :
    (f.holding rows).add rowAddr = .ok (f.holding (rowAddr ::ₘ rows)) := by
  rw [add,updateEntries_eq inc32 (f := f.holding rows) hentries rfl]
  refine ok_entries fun i => ?_
  have hlt:=hfits i
  rw [load_cons] at hlt ⊢
  change inc32^[_] (load f.slot f.numHashes rows i)=_
  rw [hits_eq (f.holding rows) rowAddr i]
  change inc32^[hits f.slot f.numHashes rowAddr i] _=_
  rw [iterate_inc32 _ (by omega),Nat.mod_eq_of_lt (by omega)]
  omega

variable {rowAddr : ℕ}

theorem del_holding (hentries : 0<f.numEntries) (hmem : rowAddr∈rows) (hfits : f.Fits rows) :
    (f.holding rows).del rowAddr = .ok (f.holding (rows.erase rowAddr)) := by
  rw [del,updateEntries_eq _ (f := f.holding rows) hentries rfl]
  refine ok_entries fun i => ?_
  have hload:=load_erase (s := f.slot) (n := f.numHashes) hmem i
  change (fun count => if count=0 then 0 else dec32 count)^[_] (load f.slot f.numHashes rows i)=_
  rw [hits_eq (f.holding rows) rowAddr i]
  change (fun count => _)^[hits f.slot f.numHashes rowAddr i] _=_
  rw [iterate_dec32 (by omega) (hfits i)]
  omega

theorem queryFrom_eq (hentries : 0<f.numEntries) (hsize : f.entries.size=f.numEntries)
    (rowAddr fuel n : ℕ) : f.queryFrom rowAddr fuel n =
      .ok ((List.range' n fuel).all fun k => f.entries.get (f.slot rowAddr k) != 0) := by
  induction fuel generalizing n with
  | zero => rfl
  | succ fuel ih =>
    have hread : (f.entries.read (f.slot rowAddr n) : Except Fault ℕ) =
        .ok (f.entries.get (f.slot rowAddr n)) := Cells.read_of_lt _ (hsize ▸ slot_lt hentries _ _)
    simp only [queryFrom,nthHash_eq f hentries,hread,bind,Except.bind]
    rw [range'_succ,all_cons]
    by_cases hzero : f.entries.get (f.slot rowAddr n)=0
    · rw [if_pos hzero,hzero]
      rfl
    · rw [if_neg hzero,ih (n+1),bne_iff_ne.mpr hzero,Bool.true_and]

theorem query_member (hentries : 0<f.numEntries) (hmem : rowAddr∈rows) :
    (f.holding rows).query rowAddr = .ok true := by
  rw [query,queryFrom_eq (f := f.holding rows) hentries rfl]
  refine congrArg Except.ok (all_eq_true.mpr fun k hk => bne_iff_ne.mpr ?_)
  have hk : k<f.numHashes := by
    have := (mem_range'_1.mp hk).2
    rw [Nat.zero_add] at this
    exact this
  exact ne_of_gt (load_pos (s := f.slot) hmem hk)

theorem query_zero (hentries : 0<f.numEntries) (hsize : f.entries.size=f.numEntries)
    (hhashes : 0<f.numHashes) (h : f.entries.get (f.slot rowAddr 0)=0) : f.query rowAddr = .ok false := by
  rw [query,queryFrom_eq hentries hsize]
  refine congrArg Except.ok (all_eq_false.mpr ⟨0,?_,?_⟩)
  · exact mem_range'_1.mpr ⟨le_refl 0,by rw [Nat.zero_add]; exact hhashes⟩
  · rw [h]
    decide

theorem run_holding (hentries : 0<f.numEntries) (calls : List Call) (h : Along f.Fits rows calls) :
    (f.holding rows).run calls = .ok (f.holding (members calls rows)) := by
  induction calls generalizing rows with
  | nil => rfl
  | cons call calls ih =>
    cases call with
    | add rowAddr =>
      have hnext : f.Fits (rowAddr ::ₘ rows) := by
        cases calls with
        | nil => exact h.2
        | cons call calls => cases call <;> exact h.2.1
      rw [run,foldlM_cons,perform,add_holding hentries rowAddr hnext]
      exact ih h.2
    | del rowAddr =>
      rw [run,foldlM_cons,perform,del_holding hentries h.2.1 h.1]
      exact ih h.2.2

theorem members_append (before after : List Call) (rows : Multiset ℕ) :
    members (before++after) rows=members after (members before rows) :=
  foldl_append ..

theorem erase_cons_of_mem {rowAddr r : ℕ} (h : r∈rows) : (rowAddr ::ₘ rows).erase r=rowAddr ::ₘ rows.erase r := by
  by_cases hr : rowAddr=r
  · subst hr
    rw [Multiset.erase_cons_head,Multiset.cons_erase h]
  · exact Multiset.erase_cons_tail _ hr

variable {p : Multiset ℕ → Prop}

theorem members_cons (calls : List Call) (rowAddr : ℕ) (h : Along p rows calls) :
    members calls (rowAddr ::ₘ rows)=rowAddr ::ₘ members calls rows := by
  induction calls generalizing rows with
  | nil => rfl
  | cons call calls ih =>
    cases call with
    | add r =>
      change members calls (r ::ₘ rowAddr ::ₘ rows)=_
      rw [Multiset.cons_swap]
      exact ih h.2
    | del r =>
      change members calls ((rowAddr ::ₘ rows).erase r)=_
      rw [erase_cons_of_mem h.2.1]
      exact ih h.2.2

theorem fits_of_cons (h : f.Fits (rowAddr ::ₘ rows)) : f.Fits rows := by
  intro i
  have hi:=h i
  rw [load_cons] at hi
  omega

theorem along_head {calls : List Call} (h : Along p rows calls) : p rows := by
  cases calls with
  | nil => exact h
  | cons call calls => cases call <;> exact h.1

theorem along_append {before after : List Call} :
    Along p rows (before++after) ↔ Along p rows before ∧ Along p (members before rows) after := by
  induction before generalizing rows with
  | nil =>
    change Along p rows after ↔ p rows ∧ Along p rows after
    exact ⟨fun h => ⟨along_head h,h⟩,fun h => h.2⟩
  | cons call before ih =>
    cases call with
    | add r =>
      change p rows ∧ Along p _ (before++after) ↔ (p rows ∧ Along p _ before) ∧ _
      rw [ih,and_assoc]
      rfl
    | del r =>
      change p rows ∧ r∈rows ∧ Along p _ (before++after) ↔
        (p rows ∧ r∈rows ∧ Along p _ before) ∧ _
      rw [ih,and_assoc,and_assoc]
      rfl

theorem along_fits_of_cons {calls : List Call}
    (h : Along f.Fits (rowAddr ::ₘ rows) calls) (hpaired : Along (fun _ => True) rows calls) :
    Along f.Fits rows calls := by
  have hrows:=fits_of_cons (along_head h)
  induction calls generalizing rows with
  | nil => exact hrows
  | cons call calls ih =>
    cases call with
    | add r =>
      have hnext:=h.2
      rw [Multiset.cons_swap] at hnext
      exact ⟨hrows,ih hnext hpaired.2 (fits_of_cons (along_head hnext))⟩
    | del r =>
      have hmem:=hpaired.2.1
      have hnext:=h.2.2
      rw [erase_cons_of_mem hmem] at hnext
      exact ⟨hrows,hmem,ih hnext hpaired.2.2 (fits_of_cons (along_head hnext))⟩

theorem construct_holding (numEntries numHashes : ℕ) (rqHash : ℕ → UInt64 × UInt64)
    (memory : UInt64 × UInt64 × UInt64) :
    (construct numEntries numHashes rqHash memory).holding 0 =
      construct numEntries numHashes rqHash memory := rfl

/-- The entries are the loads of the members, for every hash function. -/
theorem bloom_exact (numEntries numHashes : ℕ) (rqHash : ℕ → UInt64 × UInt64)
    (memory : UInt64 × UInt64 × UInt64) (hentries : 0<numEntries) (hhashes : 0<numHashes)
    (calls : List Call)
    (hfits : Along (construct numEntries numHashes rqHash memory).Fits 0 calls) :
    ∃ f, (construct numEntries numHashes rqHash memory).run calls = .ok f ∧
      (∀ i,f.entries.get i=load f.slot numHashes (members calls 0) i) ∧
      (∀ x∈members calls 0,f.query x = .ok true) ∧
      (members calls 0=0 → ∀ x,f.query x = .ok false) ∧
      ∀ before between x,calls=before ++ .add x::(between++[.del x]) →
        Along (fun _ => True) 0 (before++between) →
        (construct numEntries numHashes rqHash memory).run (before++between) = .ok f := by
  generalize hf : construct numEntries numHashes rqHash memory=f at hfits ⊢
  have hzero : f.holding 0=f := by rw [← hf,construct_holding]
  have hn : f.numEntries=numEntries := by rw [← hf]; rfl
  have hk : f.numHashes=numHashes := by rw [← hf]; rfl
  have hpos : 0<f.numEntries := hn ▸ hentries
  have hrun : f.run calls = .ok (f.holding (members calls 0)) := by
    have h:=run_holding hpos calls hfits
    rw [hzero] at h
    exact h
  refine ⟨f.holding (members calls 0),hrun,fun i => ?_,fun x hx => query_member hpos hx,?_,?_⟩
  · rw [← hk]
    rfl
  · intro hempty x
    rw [hempty]
    exact query_zero (f := f.holding 0) hpos rfl (hk ▸ hhashes) rfl
  · intro before between x hcalls hpaired
    subst hcalls
    obtain ⟨hbefore,hafter⟩:=along_append.mp hfits
    obtain ⟨-,hbetween⟩:=along_append.mp hpaired
    have hlonger : Along f.Fits (x ::ₘ members before 0) between :=
      (along_append.mp hafter.2).1
    have hshort : Along f.Fits 0 (before++between) :=
      along_append.mpr ⟨hbefore,along_fits_of_cons hlonger hbetween⟩
    have h:=run_holding hpos (before++between) hshort
    rw [hzero,members_append] at h
    have hmembers : members (before ++ .add x::(between++[.del x])) 0 =
        members between (members before 0) := by
      rw [members_append]
      change members (between++[.del x]) (x ::ₘ members before 0)=_
      rw [members_append,members_cons between x hbetween]
      exact Multiset.erase_cons_head ..
    rw [hmembers]
    exact h

theorem bloom_exact_collision :
    ∃ f, (construct 1 2 (fun _ => (0,0)) (0,0,0)).run [.add 7,.add 9,.add 7,.del 7] = .ok f ∧
      f.entries.get 0=4 ∧ f.query 7 = .ok true ∧ f.query 9 = .ok true := by
  have hfew : ∀ rows : Multiset ℕ,rows.card≤3 →
      (construct 1 2 (fun _ => (0,0)) (0,0,0)).Fits rows := by
    intro rows hcard i
    exact Nat.lt_of_le_of_lt (load_le (n := 2) rows i) (by omega)
  have hfits : Along (construct 1 2 (fun _ => (0,0)) (0,0,0)).Fits 0
      [.add 7,.add 9,.add 7,.del 7] :=
    ⟨hfew _ (by decide),hfew _ (by decide),hfew _ (by decide),hfew _ (by decide),by decide,
      hfew _ (by decide)⟩
  obtain ⟨f,hrun,hload,hmember,-⟩:=bloom_exact 1 2 (fun _ => (0,0)) (0,0,0) (by decide)
    (by decide) [.add 7,.add 9,.add 7,.del 7] hfits
  have hf : ∃ f, (construct 1 2 (fun _ => (0,0)) (0,0,0)).run [.add 7,.add 9,.add 7,.del 7] =
      .ok f ∧ f.entries.get 0=4 := ⟨_,rfl,rfl⟩
  obtain ⟨g,hg,hfour⟩:=hf
  rw [hrun] at hg
  cases hg
  exact ⟨f,hrun,hfour,hmember 7 (by decide),hmember 9 (by decide)⟩

theorem run_adds (hentries : 0<f.numEntries) (rowAddr k : ℕ) (get : ℕ → ℕ)
    (hget : ∀ i,get i<2^32) :
    ({f with entries := ⟨f.numEntries,get⟩} : CountingBloomFilter).run
        (List.replicate k (.add rowAddr)) =
      .ok {f with entries := ⟨f.numEntries,fun i =>
        (get i+k*hits f.slot f.numHashes rowAddr i)%2^32⟩} := by
  induction k generalizing get with
  | zero =>
    refine ok_entries fun i => ?_
    rw [Nat.zero_mul,Nat.add_zero,Nat.mod_eq_of_lt (hget i)]
  | succ k ih =>
    have hadd : ({f with entries := ⟨f.numEntries,get⟩} : CountingBloomFilter).add rowAddr =
        .ok {f with entries := ⟨f.numEntries,fun i =>
          (get i+hits f.slot f.numHashes rowAddr i)%2^32⟩} := by
      rw [add,updateEntries_eq inc32 (f := {f with entries := ⟨f.numEntries,get⟩}) hentries rfl]
      refine ok_entries fun i => ?_
      change inc32^[_] (get i)=_
      rw [hits_eq {f with entries := ⟨f.numEntries,get⟩} rowAddr i,iterate_inc32 _ (hget i)]
      rfl
    rw [run,replicate_succ,foldlM_cons,perform,hadd]
    refine (ih _ fun i => mod_lt _ (by decide)).trans ?_
    refine ok_entries fun i => ?_
    rw [mod_add_mod,succ_mul,add_assoc,add_comm (k*_)]

theorem members_adds (k rowAddr : ℕ) (rows : Multiset ℕ) :
    members (List.replicate k (.add rowAddr)) rows=Multiset.replicate k rowAddr+rows := by
  induction k generalizing rows with
  | zero => rw [Multiset.replicate_zero,zero_add]; rfl
  | succ k ih =>
    rw [replicate_succ]
    change members (replicate k (.add rowAddr)) (rowAddr ::ₘ rows)=_
    rw [ih,Multiset.replicate_succ,Multiset.add_cons,Multiset.cons_add]

theorem along_adds (k rowAddr : ℕ) (rows : Multiset ℕ) (h : ∀ j≤k,p (Multiset.replicate j rowAddr+rows)) :
    Along p rows (List.replicate k (.add rowAddr)) := by
  induction k generalizing rows with
  | zero =>
    have hzero:=h 0 (le_refl 0)
    rw [Multiset.replicate_zero,zero_add] at hzero
    exact hzero
  | succ k ih =>
    refine ⟨by simpa using h 0 (zero_le _),ih _ fun j hj => ?_⟩
    have hnext:=h (j+1) (by omega)
    rw [Multiset.replicate_succ,Multiset.cons_add,← Multiset.add_cons] at hnext
    exact hnext

theorem adds_wrap (k : ℕ) (hk : k*2=2^32) : Along (fun rows => rows.card<2^32) 0 (List.replicate k (.add 0)) ∧
      0∈members (List.replicate k (.add 0)) 0 ∧
      ∃ f, (construct 1 2 (fun _ => (0,0)) (0,0,0)).run (List.replicate k (.add 0)) = .ok f ∧ f.entries.get 0=0 ∧
        load f.slot f.numHashes (members (List.replicate k (.add 0)) 0) 0=2^32 ∧ f.query 0 = .ok false := by
  have hmembers : members (replicate k (.add 0)) 0=Multiset.replicate k 0 := by
    rw [members_adds,add_zero]
  have hrun:=run_adds (f := construct 1 2 (fun _ => (0,0)) (0,0,0)) one_pos 0 k
    (fun _ => 0) fun _ => by decide
  have hwrap : (0+k*hits (construct 1 2 (fun _ => (0,0)) (0,0,0)).slot 2 0 0)%2^32=0 := by
    change (0+k*2)%2^32=0
    omega
  refine ⟨along_adds _ _ _ fun j hj => ?_,?_,_,hrun,hwrap,?_,?_⟩
  · rw [add_zero,Multiset.card_replicate]
    omega
  · rw [hmembers,Multiset.mem_replicate]
    exact ⟨by omega,rfl⟩
  · rw [hmembers,load_replicate]
    exact hk
  · exact query_zero one_pos rfl (succ_pos 1) hwrap

/-- The filter denies a row that was added 2^31 times. -/
theorem bloom_wrapped :
    Along (fun rows => rows.card<2^32) 0 (List.replicate (2^31) (.add 0)) ∧
      0∈members (List.replicate (2^31) (.add 0)) 0 ∧
      ∃ f, (construct 1 2 (fun _ => (0,0)) (0,0,0)).run (List.replicate (2^31) (.add 0)) = .ok f ∧
        f.entries.get 0=0 ∧
        load f.slot f.numHashes (members (List.replicate (2^31) (.add 0)) 0) 0=2^32 ∧
        f.query 0 = .ok false :=
  adds_wrap (2^31) (by decide)

end AquaGem5.Quarantine.CountingBloomFilter
