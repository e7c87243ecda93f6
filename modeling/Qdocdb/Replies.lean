import Qdocdb.Steps

/-!
# Replies of observers

A collection keeps a reply for each observer. A transaction works on a copy of the
observers, and a commit copies the replies that differ back. The lemmas here say what the
observers are after the loops that go over all of them.
-/

namespace Qdocdb

/-- Where no document has the `_id`, none is replaced. -/
theorem replaceFirst_of_forall {o : QJsonObject} {reply : List QJsonValue}
    (h : ∀ v ∈ reply, sameId o v = false) : replaceFirst o reply = reply := by
  induction reply with
  | nil => rfl
  | cons v reply ih =>
    rw [replaceFirst, h v List.mem_cons_self, if_neg Bool.false_ne_true,
      ih fun w hw => h w (List.mem_cons_of_mem v hw)]

/-- Without options a reply is left as it is. -/
theorem applyOptionsReply_nil (reply : List QJsonValue) : applyOptionsReply reply [] = reply := by
  simp [applyOptionsReply, applyOptions, QJsonObject.contains, Function.comp_def]

namespace Observers

variable {observers : Observers}

/-- The reply of an observer. -/
def reply (observers : Observers) (id : ℤ) : Option (List QJsonValue) :=
  (observers.lookup id).map Observer.reply

/-- A loop over keys whose rounds change one entry each changes their entries. -/
theorem lookup_foldl {round : Observers → ℤ → Observers} {body : Observer → Observer} {id : ℤ}
    (hround : ∀ obs key, (round obs key).lookup id =
      if id = key then (obs.lookup id).map body else obs.lookup id)
    {keys : List ℤ} (hkeys : keys.Nodup) (obs : Observers) :
    (keys.foldl round obs).lookup id =
      if id ∈ keys then (obs.lookup id).map body else obs.lookup id := by
  induction keys generalizing obs with
  | nil => rfl
  | cons key keys ih =>
    obtain ⟨hkey, hnodup⟩ := List.nodup_cons.mp hkeys
    rw [List.foldl_cons, ih hnodup, hround]
    by_cases hid : id = key
    · subst hid
      rw [if_neg hkey, if_pos rfl, if_pos List.mem_cons_self]
    · simp only [hid, if_false, List.mem_cons, false_or]

/-- **A loop over the observers** runs its body on each of them. -/
theorem lookup_update (body : Observer → Observer) (id : ℤ) :
    (observers.update body).lookup id = (observers.lookup id).map body := by
  rw [update, @lookup_foldl _ body id ?_ _ (AList.keys_nodup observers)]
  swap
  · intro obs key
    by_cases hid : id = key
    · subst hid
      rw [if_pos rfl]
      cases h : obs.lookup id with
      | none => simpa using h
      | some o => exact AList.lookup_insert _
    · rw [if_neg hid]
      cases obs.lookup key with
      | none => rfl
      | some o => exact AList.lookup_insert_ne hid
  split
  · rfl
  · rename_i hmem
    rw [AList.lookup_eq_none.mpr hmem]
    rfl

theorem foldl_congr {round round' : Observers → ℤ → Observers} (same : Observer → Prop)
    (hround : ∀ obs key, (∀ ob, obs.lookup key = some ob → same ob) →
      round obs key = round' obs key)
    (hother : ∀ obs key id, id ≠ key → (round obs key).lookup id = obs.lookup id)
    {keys : List ℤ} (hkeys : keys.Nodup) {obs : Observers}
    (h : ∀ id ∈ keys, ∀ ob, obs.lookup id = some ob → same ob) :
    keys.foldl round obs = keys.foldl round' obs := by
  induction keys generalizing obs with
  | nil => rfl
  | cons key keys ih =>
    obtain ⟨hkey, hnodup⟩ := List.nodup_cons.mp hkeys
    rw [List.foldl_cons, List.foldl_cons, ← hround obs key (h key List.mem_cons_self)]
    refine ih hnodup fun id hid ob hob => h id (List.mem_cons_of_mem _ hid) ob ?_
    rwa [hother obs key id fun heq => hkey (heq ▸ hid)] at hob

/-- What a loop does depends on what its body makes of the observers that are there. -/
theorem update_congr {body body' : Observer → Observer}
    (h : ∀ id ob, observers.lookup id = some ob → body ob = body' ob) :
    observers.update body = observers.update body' := by
  refine foldl_congr (fun ob => body ob = body' ob) (fun obs key hob => ?_)
    (fun obs key id hid => ?_) (AList.keys_nodup observers) fun id _ => h id
  · cases hlookup : obs.lookup key with
    | none => rfl
    | some ob => dsimp only; rw [hob ob hlookup]
  · cases obs.lookup key with
    | none => rfl
    | some ob => exact AList.lookup_insert_ne hid

theorem reply_update (body : Observer → Observer) (id : ℤ) :
    (observers.update body).reply id = (observers.lookup id).map fun o => (body o).reply := by
  rw [reply, lookup_update, Option.map_map]
  rfl

end Observers

namespace Collection

variable {E : Env} {σ : Collection} {tx : Transaction}

/-- Emitting signals keeps the replies. -/
@[simp] theorem reply_emitObservers (id : ℤ) :
    σ.emitObservers.observers.reply id = σ.observers.reply id := by
  rw [emitObservers, Observers.reply_update, Observers.reply]

/-- An observer after a transaction's reply was copied to it. -/
def copyReply (reply : List QJsonValue) (observer : Observer) : Observer :=
  if QJsonValue.eqList observer.reply reply then observer
  else { observer with reply := reply, triggered := true }

/-- **The copying loop** of a commit: the observers of the transaction get its replies. -/
theorem lookup_copyReplies (id : ℤ) (keys : List ℤ) (hnodup : keys.Nodup) (base : Observers) :
    (copyReplies tx keys base).lookup id =
      if id ∈ keys then
        some (copyReply ((tx.observers.reply id).getD [])
          ((base.lookup id).getD ⟨[], [], [], false⟩))
      else base.lookup id := by
  induction keys generalizing base with
  | nil => rfl
  | cons key keys ih =>
    obtain ⟨hkey, hnodup⟩ := List.nodup_cons.mp hnodup
    rw [copyReplies, ih hnodup]
    by_cases hid : id = key
    · subst hid
      rw [if_neg hkey, if_pos List.mem_cons_self, AList.lookup_insert]
      rfl
    · rw [AList.lookup_insert_ne hid]
      simp only [List.mem_cons, hid, false_or]

/-- The reply after a copy is the transaction's, up to `==`. -/
theorem reply_copyReply (reply : List QJsonValue) (observer : Observer) :
    (copyReply reply observer).reply =
      if QJsonValue.eqList observer.reply reply then observer.reply else reply := by
  rw [copyReply]
  split <;> rfl

/-- **Observers after a commit** that goes through. -/
theorem lookup_writeTransaction {id : ℤ} (h : (σ.writeTransaction E tx).1 = .success) :
    (σ.writeTransaction E tx).2.observers.lookup id =
      (if id ∈ tx.observers then
        some (copyReply ((tx.observers.reply id).getD [])
          ((σ.observers.lookup id).getD ⟨[], [], [], false⟩))
      else σ.observers.lookup id).map fun o => { o with triggered := false } := by
  rw [writeTransaction] at h ⊢
  split at h
  · rename_i db heq
    dsimp only
    rw [emitObservers, Observers.lookup_update,
      lookup_copyReplies id _ (AList.keys_nodup tx.observers)]
    simp only [AList.mem_keys]
  · cases h

/-- **Replies after a commit** that goes through. -/
theorem reply_writeTransaction {id : ℤ} (h : (σ.writeTransaction E tx).1 = .success) :
    (σ.writeTransaction E tx).2.observers.reply id =
      if id ∈ tx.observers then
        some (copyReply ((tx.observers.reply id).getD [])
          ((σ.observers.lookup id).getD ⟨[], [], [], false⟩)).reply
      else σ.observers.reply id := by
  rw [Observers.reply, lookup_writeTransaction h, Option.map_map]
  split <;> rfl

/-- Committing a transaction that wrote nothing changes nothing. -/
theorem writeTransaction_of_untouched (hkvdb : tx.kvdb = .new)
    (hobservers : tx.observers = σ.observers) :
    (σ.writeTransaction E tx).2.db = σ.db ∧
      ∀ id, (σ.writeTransaction E tx).2.observers.reply id = σ.observers.reply id := by
  have hcommit : tx.kvdb.writeTransaction E.backend σ.db = (.success, σ.db) := by
    have : commit E.backend σ.db [] = _ := commit_of_disjoint (by simp)
    rwa [commit, KVTransaction.writes_nil, ← hkvdb] at this
  have hsuccess : (σ.writeTransaction E tx).1 = .success := by
    rw [writeTransaction, hcommit]
  refine ⟨by rw [writeTransaction, hcommit]; rfl, fun id => ?_⟩
  rw [reply_writeTransaction hsuccess, hobservers]
  split
  · rename_i hmem
    obtain ⟨o, ho⟩ := Option.isSome_iff_exists.mp (AList.lookup_isSome.mpr hmem)
    rw [Observers.reply, ho, reply_copyReply]
    simp
  · rfl

end Collection

end Qdocdb
