import CoinWatch.Switchboard
import Mathlib.Data.List.Basic

/-! # Tokens follow their own trigger

What a token tells is said here by what has happened alone, with no regard to the state of the
switchboard.  Looking back from the newest happening, the name of a trigger leads to the pair that
it came with (`triggerOrigin`), and the name of a token leads to a pair, to a trigger, to another
token or to a token without trigger, and so at last to the happening that made its channel
(`tokenOrigin`).  The channel is triggered if a trigger that came from the same happening has fired
(`Triggered`).

A switchboard agrees with all that has happened to it (`Follows`), and each happening keeps this
(`Follows.step`).  So a token tells whether its own channel was triggered (`tells_own_trigger`). -/

namespace CoinWatch

namespace Switch

/-- A channel is made. -/
def makesChannel : Switch → Bool
  | pair .. | never _ => true
  | _ => false

/-- The name of a token is given away or taken away. -/
def Renames (n : String) : Switch → Prop
  | pair _ t | token _ t | copy _ t | never t | dropToken t => t = n
  | fire _ | dropTrigger _ => False

end Switch

namespace Switchboard

/-! ### Looking back

What has happened is listed with the newest first, and the place of a happening is the number of
those before it. -/

/-- The place at which the channel of a trigger was made, if there is a trigger of this name. -/
def triggerOrigin : (past : List Switch) → (name : String) → Option ℕ
  | [], _ => none
  | .pair trigger _ :: past, n => if trigger = n then some past.length else triggerOrigin past n
  | .dropTrigger trigger :: past, n => if trigger = n then none else triggerOrigin past n
  | _ :: past, n => triggerOrigin past n

/-- The place at which the channel of a token was made, if there is a token of this name.  A token
that is to be made of nothing leaves its name as it was. -/
def tokenOrigin : (past : List Switch) → (name : String) → Option ℕ
  | [], _ => none
  | .pair _ token :: past, n => if token = n then some past.length else tokenOrigin past n
  | .never token :: past, n => if token = n then some past.length else tokenOrigin past n
  | .token trigger token :: past, n =>
    if token = n then (triggerOrigin past trigger).or (tokenOrigin past n) else tokenOrigin past n
  | .copy source token :: past, n =>
    if token = n then (tokenOrigin past source).or (tokenOrigin past n) else tokenOrigin past n
  | .dropToken token :: past, n => if token = n then none else tokenOrigin past n
  | _ :: past, n => tokenOrigin past n

/-- At some time a trigger fired whose channel was made at place `k`. -/
def Triggered (past : List Switch) (k : ℕ) : Prop :=
  ∃ newer trigger older, past = newer ++ .fire trigger :: older ∧
    triggerOrigin older trigger = some k

variable {past newer : List Switch} {e : Switch} {n : String} {k : ℕ}

@[simp]
theorem not_triggered_nil : ¬ Triggered [] k := by
  rintro ⟨newer, trigger, older, heq, -⟩
  simp at heq

theorem triggered_cons :
    Triggered (e :: past) k ↔
      (∃ trigger, e = .fire trigger ∧ triggerOrigin past trigger = some k) ∨ Triggered past k := by
  constructor
  · rintro ⟨newer, trigger, older, heq, horigin⟩
    cases newer with
    | nil =>
      obtain ⟨rfl, rfl⟩ := List.cons.inj heq
      exact .inl ⟨trigger, rfl, horigin⟩
    | cons e' newer =>
      obtain ⟨rfl, rfl⟩ := List.cons.inj heq
      exact .inr ⟨newer, trigger, older, rfl, horigin⟩
  · rintro (⟨trigger, rfl, horigin⟩ | ⟨newer, trigger, older, rfl, horigin⟩)
    · exact ⟨[], trigger, past, rfl, horigin⟩
    · exact ⟨e :: newer, trigger, older, rfl, horigin⟩

theorem Triggered.append (h : Triggered past k) (newer : List Switch) :
    Triggered (newer ++ past) k := by
  obtain ⟨newer', trigger, older, rfl, horigin⟩ := h
  exact ⟨newer ++ newer', trigger, older, (List.append_assoc _ _ _).symm, horigin⟩

/-! ### Places -/

/-- A channel was made at place `k`. -/
def MadeAt (past : List Switch) (k : ℕ) : Prop :=
  ∃ e, past.reverse[k]? = some e ∧ e.makesChannel = true

theorem getElem?_reverse_cons_length (e : Switch) (past : List Switch) :
    (e :: past).reverse[past.length]? = some e := by
  simp

theorem getElem?_reverse_append {f : Switch} (h : past.reverse[k]? = some f)
    (newer : List Switch) : (newer ++ past).reverse[k]? = some f := by
  obtain ⟨hk, _⟩ := List.getElem?_eq_some_iff.mp h
  rw [List.reverse_append, List.getElem?_append_left hk, h]

theorem MadeAt.cons (h : MadeAt past k) (e : Switch) : MadeAt (e :: past) k := by
  obtain ⟨f, hf, hmakes⟩ := h
  exact ⟨f, getElem?_reverse_append hf [e], hmakes⟩

theorem MadeAt.lt_length (h : MadeAt past k) : k < past.length := by
  obtain ⟨f, hf, _⟩ := h
  obtain ⟨hk, _⟩ := List.getElem?_eq_some_iff.mp hf
  rwa [List.length_reverse] at hk

theorem pair_of_triggerOrigin (h : triggerOrigin past n = some k) :
    ∃ token, past.reverse[k]? = some (.pair n token) := by
  induction past with
  | nil => cases h
  | cons e past ih =>
    have hkept (h : triggerOrigin past n = some k) :
        ∃ token, (e :: past).reverse[k]? = some (.pair n token) := by
      obtain ⟨token, htoken⟩ := ih h
      exact ⟨token, getElem?_reverse_append htoken [e]⟩
    cases e with
    | pair trigger token =>
      rw [triggerOrigin] at h
      split at h
      case isTrue heq =>
        cases heq
        cases h
        exact ⟨token, getElem?_reverse_cons_length _ past⟩
      case isFalse => exact hkept h
    | dropTrigger trigger =>
      rw [triggerOrigin] at h
      split at h
      case isTrue => cases h
      case isFalse => exact hkept h
    | token | copy | never | fire | dropToken => exact hkept h

theorem madeAt_of_triggerOrigin (h : triggerOrigin past n = some k) : MadeAt past k := by
  obtain ⟨token, htoken⟩ := pair_of_triggerOrigin h
  exact ⟨_, htoken, rfl⟩

/-- A token comes from a happening that makes a channel. -/
theorem madeAt_of_tokenOrigin (h : tokenOrigin past n = some k) : MadeAt past k := by
  induction past generalizing n with
  | nil => cases h
  | cons e past ih =>
    cases e with
    | pair _ token | never token =>
      rw [tokenOrigin] at h
      split at h
      case isTrue =>
        cases h
        exact ⟨_, getElem?_reverse_cons_length _ past, rfl⟩
      case isFalse => exact (ih h).cons _
    | token trigger token =>
      rw [tokenOrigin] at h
      split at h
      case isTrue =>
        obtain h | ⟨-, h⟩ := Option.or_eq_some_iff.mp h
        · exact (madeAt_of_triggerOrigin h).cons _
        · exact (ih h).cons _
      case isFalse => exact (ih h).cons _
    | copy source token =>
      rw [tokenOrigin] at h
      split at h
      case isTrue =>
        obtain h | ⟨-, h⟩ := Option.or_eq_some_iff.mp h
        · exact (ih h).cons _
        · exact (ih h).cons _
      case isFalse => exact (ih h).cons _
    | dropToken token =>
      rw [tokenOrigin] at h
      split at h
      case isTrue => cases h
      case isFalse => exact (ih h).cons _
    | fire | dropTrigger => exact (ih h).cons _

/-- A channel that is triggered was made with a trigger. -/
theorem Triggered.pair (h : Triggered past k) :
    ∃ trigger token, past.reverse[k]? = some (.pair trigger token) := by
  obtain ⟨newer, trigger, older, rfl, horigin⟩ := h
  obtain ⟨token, htoken⟩ := pair_of_triggerOrigin horigin
  rw [List.append_cons]
  exact ⟨trigger, token, getElem?_reverse_append htoken _⟩

theorem Triggered.madeAt (h : Triggered past k) : MadeAt past k := by
  obtain ⟨_, _, hpair⟩ := h.pair
  exact ⟨_, hpair, rfl⟩

/-- A token keeps its origin as long as its name is not given to another one. -/
theorem tokenOrigin_append (h : ∀ e ∈ newer, ¬ e.Renames n) :
    tokenOrigin (newer ++ past) n = tokenOrigin past n := by
  induction newer with
  | nil => rfl
  | cons e newer ih =>
    obtain ⟨he, hnewer⟩ := List.forall_mem_cons.mp h
    rw [List.cons_append, ← ih hnewer]
    cases e with
    | pair | token | copy | never | dropToken => exact if_neg he
    | fire | dropTrigger => rfl

/-! ### Numbers of channels -/

/-- How many channels were made before place `k`: the number of the channel made there. -/
def number (past : List Switch) (k : ℕ) : ℕ := (past.reverse.take k).countP Switch.makesChannel

theorem number_cons (hk : k ≤ past.length) (e : Switch) : number (e :: past) k = number past k := by
  rw [number, number, List.reverse_cons, List.take_append_of_le_length (by simpa using hk)]

theorem MadeAt.number_cons (h : MadeAt past k) (e : Switch) :
    number (e :: past) k = number past k :=
  Switchboard.number_cons (Nat.le_of_lt h.lt_length) e

theorem number_length (past : List Switch) :
    number past past.length = past.countP Switch.makesChannel := by
  rw [number, List.take_of_length_le (by simp), List.countP_reverse]

theorem MadeAt.number_lt {j : ℕ} (h : MadeAt past j) (hlt : j < k) :
    number past j < number past k := by
  obtain ⟨e, he, hmakes⟩ := h
  have hnext : number past (j + 1) = number past j + 1 := by
    rw [number, number, List.take_add_one, he, List.countP_append]
    simp [hmakes]
  have hmore : number past (j + 1) ≤ number past k :=
    (List.take_sublist_take_left hlt).countP_le
  omega

theorem MadeAt.eq_of_number_eq {j : ℕ} (hj : MadeAt past j) (hk : MadeAt past k)
    (h : number past j = number past k) : j = k := by
  obtain hlt | heq | hlt := Nat.lt_trichotomy j k
  · exact absurd h (Nat.ne_of_lt (hj.number_lt hlt))
  · exact heq
  · exact absurd h.symm (Nat.ne_of_lt (hk.number_lt hlt))

theorem map_number_cons {origin : Option ℕ} (h : ∀ k, origin = some k → MadeAt past k)
    (e : Switch) : origin.map (number (e :: past)) = origin.map (number past) := by
  cases origin with
  | none => rfl
  | some k => rw [Option.map_some, Option.map_some, (h k rfl).number_cons]

/-! ### What a happening does -/

section step

variable {b : Switchboard} {channel : Option ℕ} {name : String}

@[simp]
theorem channels_addToken : (b.addToken channel name).channels = b.channels := by
  cases channel <;> rfl

@[simp]
theorem fired_addToken : (b.addToken channel name).fired = b.fired := by
  cases channel <;> rfl

@[simp]
theorem triggers_addToken : (b.addToken channel name).triggers = b.triggers := by
  cases channel <;> rfl

theorem getElem?_tokens_addToken :
    (b.addToken channel name).tokens[n]? =
      if name = n then channel.or b.tokens[n]? else b.tokens[n]? := by
  cases channel with
  | none => simp [addToken]
  | some c => simp [addToken, Std.ExtTreeMap.getElem?_insert]

theorem mem_fired_step {e : Switch} {c : ℕ} :
    c ∈ (b.step e).fired ↔
      (∃ trigger, e = .fire trigger ∧ b.triggers[trigger]? = some c) ∨ c ∈ b.fired := by
  cases e with
  | fire trigger =>
    rw [step]
    cases hchannel : b.triggers[trigger]? with
    | none => simp [hchannel]
    | some c' => simp [hchannel, Std.ExtTreeSet.mem_insert]
  | pair | token | copy | never | dropTrigger | dropToken => simp [step]

end step

/-! ### The switchboard and what has happened -/

/-- The switchboard is as what has happened to it says. -/
structure Follows (past : List Switch) (b : Switchboard) : Prop where
  channels : b.channels = past.countP Switch.makesChannel
  triggers : ∀ n, b.triggers[n]? = (triggerOrigin past n).map (number past)
  tokens : ∀ n, b.tokens[n]? = (tokenOrigin past n).map (number past)
  fired : ∀ c, c ∈ b.fired ↔ ∃ k, Triggered past k ∧ number past k = c

namespace Follows

variable {b : Switchboard}

theorem empty : Follows [] empty where
  channels := rfl
  triggers n := by simp [Switchboard.empty, triggerOrigin]
  tokens n := by simp [Switchboard.empty, tokenOrigin]
  fired c := by simp [Switchboard.empty]

theorem triggers_cons (h : Follows past b) (e : Switch) (n : String) :
    (triggerOrigin past n).map (number (e :: past)) = b.triggers[n]? := by
  rw [h.triggers, map_number_cons (fun k => madeAt_of_triggerOrigin)]

theorem tokens_cons (h : Follows past b) (e : Switch) (n : String) :
    (tokenOrigin past n).map (number (e :: past)) = b.tokens[n]? := by
  rw [h.tokens, map_number_cons (fun k => madeAt_of_tokenOrigin)]

theorem number_cons_length (h : Follows past b) (e : Switch) :
    number (e :: past) past.length = b.channels := by
  rw [number_cons (Nat.le_refl _), number_length, h.channels]

theorem channels_step (h : Follows past b) (e : Switch) :
    (b.step e).channels = (e :: past).countP Switch.makesChannel := by
  rw [List.countP_cons, ← h.channels]
  cases e with
  | pair | never | dropTrigger | dropToken => rfl
  | token | copy => exact channels_addToken
  | fire trigger =>
    rw [step]
    split <;> rfl

theorem triggers_step (h : Follows past b) (e : Switch) (n : String) :
    (b.step e).triggers[n]? = (triggerOrigin (e :: past) n).map (number (e :: past)) := by
  cases e with
  | pair trigger token =>
    rw [triggerOrigin, apply_ite (Option.map _), Option.map_some, h.number_cons_length,
      h.triggers_cons]
    simp [step, Std.ExtTreeMap.getElem?_insert]
  | dropTrigger trigger =>
    rw [triggerOrigin, apply_ite (Option.map _), Option.map_none, h.triggers_cons]
    simp [step, Std.ExtTreeMap.getElem?_erase]
  | token | copy =>
    refine Eq.trans ?_ (h.triggers_cons _ n).symm
    rw [step, triggers_addToken]
  | fire trigger =>
    refine Eq.trans ?_ (h.triggers_cons _ n).symm
    rw [step]
    split <;> rfl
  | never | dropToken => exact (h.triggers_cons _ n).symm

theorem tokens_step (h : Follows past b) (e : Switch) (n : String) :
    (b.step e).tokens[n]? = (tokenOrigin (e :: past) n).map (number (e :: past)) := by
  cases e with
  | pair _ token | never token =>
    rw [tokenOrigin, apply_ite (Option.map _), Option.map_some, h.number_cons_length,
      h.tokens_cons]
    simp [step, Std.ExtTreeMap.getElem?_insert]
  | token trigger token =>
    rw [tokenOrigin, apply_ite (Option.map _), Option.map_or, h.triggers_cons, h.tokens_cons]
    exact getElem?_tokens_addToken
  | copy source token =>
    rw [tokenOrigin, apply_ite (Option.map _), Option.map_or, h.tokens_cons, h.tokens_cons]
    exact getElem?_tokens_addToken
  | dropToken token =>
    rw [tokenOrigin, apply_ite (Option.map _), Option.map_none, h.tokens_cons]
    simp [step, Std.ExtTreeMap.getElem?_erase]
  | fire trigger =>
    refine Eq.trans ?_ (h.tokens_cons _ n).symm
    rw [step]
    split <;> rfl
  | dropTrigger => exact (h.tokens_cons _ n).symm

theorem fired_step (h : Follows past b) (e : Switch) (c : ℕ) :
    c ∈ (b.step e).fired ↔ ∃ k, Triggered (e :: past) k ∧ number (e :: past) k = c := by
  rw [mem_fired_step, h.fired]
  constructor
  · rintro (⟨trigger, rfl, hc⟩ | ⟨k, hk, rfl⟩)
    · rw [h.triggers, Option.map_eq_some_iff] at hc
      obtain ⟨k, horigin, rfl⟩ := hc
      exact ⟨k, triggered_cons.mpr (.inl ⟨trigger, rfl, horigin⟩),
        (madeAt_of_triggerOrigin horigin).number_cons _⟩
    · exact ⟨k, triggered_cons.mpr (.inr hk), hk.madeAt.number_cons e⟩
  · rintro ⟨k, hk, rfl⟩
    obtain ⟨trigger, rfl, horigin⟩ | hk := triggered_cons.mp hk
    · refine .inl ⟨trigger, rfl, ?_⟩
      rw [h.triggers, horigin, Option.map_some, (madeAt_of_triggerOrigin horigin).number_cons]
    · exact .inr ⟨k, hk, (hk.madeAt.number_cons e).symm⟩

theorem step (h : Follows past b) (e : Switch) : Follows (e :: past) (b.step e) :=
  ⟨h.channels_step e, h.triggers_step e, h.tokens_step e, h.fired_step e⟩

theorem run (past : List Switch) : Follows past (Switchboard.empty.run past.reverse) := by
  induction past with
  | nil => exact .empty
  | cons e past ih =>
    rw [Switchboard.run, List.reverse_cons, List.foldl_append]
    exact ih.step e

/-- What a token tells is whether its own channel was triggered. -/
theorem isFired?_eq_some_iff (h : Follows past b) {told : Bool} :
    b.isFired? n = some told ↔
      ∃ k, tokenOrigin past n = some k ∧ (told = true ↔ Triggered past k) := by
  have hfired {k : ℕ} (hk : MadeAt past k) :
      b.fired.contains (number past k) = true ↔ Triggered past k := by
    rw [Std.ExtTreeSet.contains_iff_mem, h.fired]
    constructor
    · rintro ⟨j, hj, hnumber⟩
      rwa [← hj.madeAt.eq_of_number_eq hk hnumber]
    · exact fun htriggered => ⟨k, htriggered, rfl⟩
  rw [isFired?, h.tokens, Option.map_map, Option.map_eq_some_iff]
  refine exists_congr fun k => and_congr_right fun horigin => ?_
  rw [Function.comp_apply, ← hfired (madeAt_of_tokenOrigin horigin), Bool.eq_iff_iff]
  exact Iff.comm

end Follows

theorem mem_view {b : Switchboard} {told : Bool} :
    (n, told) ∈ b.view ↔ b.isFired? n = some told := by
  simp [view, isFired?, Option.map_eq_some_iff, Std.ExtTreeMap.mem_toList_iff_getElem?_eq_some]

/-- **A token tells of its own trigger.**  Whatever has happened, a token tells that it has fired if
and only if the trigger of its own channel has fired, at any time, and the view of all tokens says
what they tell.  Until its name goes to another token, a token of a channel without trigger never
tells so, and one that has told so tells so again. -/
theorem tells_own_trigger (past : List Switch) (name : String) :
    let b := empty.run past.reverse
    (∀ told, b.isFired? name = some told ↔
      ∃ k, tokenOrigin past name = some k ∧ (told = true ↔ Triggered past k)) ∧
    (∀ told, (name, told) ∈ b.view ↔ b.isFired? name = some told) ∧
    ∀ later : List Switch, (∀ e ∈ later, ¬ e.Renames name) →
      ((∃ k made, tokenOrigin past name = some k ∧ past.reverse[k]? = some (.never made)) →
        (b.run later).isFired? name = some false) ∧
      (b.isFired? name = some true → (b.run later).isFired? name = some true) := by
  intro b
  refine ⟨fun told => (Follows.run past).isFired?_eq_some_iff, fun told => mem_view,
    fun later hlater => ?_⟩
  have hfollows : Follows (later.reverse ++ past) (b.run later) := by
    have h := Follows.run (later.reverse ++ past)
    rwa [List.reverse_append, List.reverse_reverse, run, List.foldl_append] at h
  have horigin : tokenOrigin (later.reverse ++ past) name = tokenOrigin past name :=
    tokenOrigin_append fun e he => hlater e (List.mem_reverse.mp he)
  rw [hfollows.isFired?_eq_some_iff, hfollows.isFired?_eq_some_iff, horigin]
  constructor
  · rintro ⟨k, made, hk, hnever⟩
    refine ⟨k, hk, ⟨nofun, fun htriggered => ?_⟩⟩
    obtain ⟨trigger, token, hpair⟩ := htriggered.pair
    rw [getElem?_reverse_append hnever] at hpair
    cases hpair
  · intro htold
    obtain ⟨k, hk, htriggered⟩ := (Follows.run past).isFired?_eq_some_iff.mp htold
    exact ⟨k, hk, by simp [(htriggered.mp rfl).append later.reverse]⟩

end Switchboard

namespace Sample

open Switchboard

/-- What happened to a token that was made after its trigger fired, newest first. -/
def afterFiring : List Switch :=
  [.pair "t" "d", .never "n", .dropTrigger "t", .token "t" "c", .fire "t", .dropToken "b",
    .dropToken "a", .copy "a" "b", .pair "t" "a"]

/-- The late token tells that its trigger fired.  The token without trigger tells the opposite, and
so does the token of the channel made last, though its trigger has the same name. -/
theorem told_after_firing :
    (∀ later : List Switch, (∀ e ∈ later, ¬ e.Renames "c") →
      ((empty.run afterFiring.reverse).run later).isFired? "c" = some true) ∧
    (∀ later : List Switch, (∀ e ∈ later, ¬ e.Renames "n") →
      ((empty.run afterFiring.reverse).run later).isFired? "n" = some false) ∧
    (empty.run afterFiring.reverse).isFired? "d" = some false := by
  have hc := tells_own_trigger afterFiring "c"
  have hn := tells_own_trigger afterFiring "n"
  have hd := tells_own_trigger afterFiring "d"
  refine ⟨fun later hlater => ?_, fun later hlater => ?_, ?_⟩
  · have hfired : Triggered afterFiring 0 := by
      simp [afterFiring, triggered_cons, triggerOrigin]
    exact (hc.2.2 later hlater).2 ((hc.1 true).mpr ⟨0, rfl, by simp [hfired]⟩)
  · exact (hn.2.2 later hlater).1 ⟨7, "n", rfl, rfl⟩
  · refine (hd.1 false).mpr ⟨8, rfl, ?_⟩
    simp [afterFiring, triggered_cons, triggerOrigin]

end Sample

end CoinWatch
