import LinearProbing.KeySet
import LinearProbing.Proofs.Association
import LinearProbing.Proofs.Run
import LinearProbing.Proofs.Runs

set_option autoImplicit false

/-!
# Calls on maps and sets

What can be done to a map or a set. Some calls hash a key and compare it with the stored ones. The others
come with a predicate of the caller's choice, and may come with a hash. A call on a set is a call on its
map, so what holds of the calls on maps is carried over to sets.
-/

namespace LinearProbing

variable {I T U P Q σ K V C : Type} {m : Type → Type} [Monad m]

inductive Reply (K V : Type) where
  | flag (b : Bool)
  | entry (found : Option (K × V))
  | key (found : Option K)
  | value (found : Option V)
  | done

inductive MapCall (K V : Type) where
  | insert (key : K) (value : V)
  | extend (pairs : List (K × V))
  | find (key : K)
  | findEntry (key : K)
  /-- Reads the value of a key and writes another one. -/
  | update (key : K) (f : V → V)
  | contains (key : K)
  | remove (key : K)
  | removeEntry (key : K)
  | clear

inductive SetCall (K : Type) where
  | insert (key : K)
  | extend (keys : List K)
  | find (key : K)
  | contains (key : K)
  | remove (key : K)
  | take (key : K)
  | clear

/-- A call that probes. An insertion goes about it as `I` says, the other calls are about the keys that `T`
says, and `U` says what becomes of a value. -/
inductive Request (I T K V U : Type) where
  | insert (how : I) (key : K) (value : V)
  | find (target : T)
  | update (target : T) (change : U)
  | remove (target : T)

/-- The keys that a request is about: those under the hash of a key, which are compared with it, or those
under a hash that the caller gives, which go to a predicate. -/
inductive Target (P K : Type) where
  | equal (key : K) (eq : K → K → P)
  | under (hash : UInt32) (accept : K → P)

/-- How an insertion finds out whether its key is new. It may come with the hash of the key. -/
structure Newcomer (P K : Type) where
  hash : Option UInt32
  eq : K → K → P

/-- A request whose caller is asked `P` about stored keys. -/
abbrev Guarded (P K V U : Type) : Type := Request (Newcomer P K) (Target P K) K V U

namespace Target

def map (f : P → Q) : Target P K → Target Q K
  | .equal key eq => .equal key fun stored key => f (eq stored key)
  | .under hash accept => .under hash fun stored => f (accept stored)

def probed (hashOf : K → UInt64) : Target P K → UInt32
  | .equal key _ => Map.bucketHash hashOf key
  | .under hash _ => hash

def asks : Target P K → K → P
  | .equal key eq, stored => eq stored key
  | .under _ accept, stored => accept stored

end Target

namespace Request

def asking (f : P → Q) : Guarded P K V U → Guarded Q K V U
  | .insert how key value => .insert ⟨how.hash, fun stored key => f (how.eq stored key)⟩ key value
  | .find target => .find (target.map f)
  | .update target change => .update (target.map f) change
  | .remove target => .remove (target.map f)

/-- The hash of the keys asked about. -/
def probed (hashOf : K → UInt64) : Guarded P K V U → UInt32
  | .insert how key _ => how.hash.getD (Map.bucketHash hashOf key)
  | .find target | .update target _ | .remove target => target.probed hashOf

/-- What the caller is asked about a stored key. -/
def asks : Guarded P K V U → K → P
  | .insert how key _, stored => how.eq stored key
  | .find target, stored | .update target _, stored | .remove target, stored => target.asks stored

/-- The number of keys that a request may add. -/
def inserts : Request I T K V U → Nat
  | .insert _ _ _ => 1
  | .find _ | .update _ _ | .remove _ => 0

/-- The request to the map of a set, whose values cannot change. -/
def onMap : Request I T K Unit Empty → Request I T K Unit (Unit → Unit)
  | .insert how key value => .insert how key value
  | .find target => .find target
  | .update _ change => nomatch change
  | .remove target => .remove target

theorem asking_id (c : Guarded P K V U) : c.asking id = c := by
  rcases c with _ | (_ | _) | ⟨_ | _, _⟩ | (_ | _) <;> rfl

@[simp] theorem asking_asking {R : Type} (f : P → Q) (g : Q → R) (c : Guarded P K V U) :
    (c.asking f).asking g = c.asking fun p => g (f p) := by
  rcases c with _ | (_ | _) | ⟨_ | _, _⟩ | (_ | _) <;> rfl

@[simp] theorem inserts_onMap (c : Request I T K Unit Empty) : c.onMap.inserts = c.inserts := by
  rcases c with _ | _ | ⟨_, ⟨⟩⟩ | _ <;> rfl

theorem onMap_asking (f : P → Q) (c : Guarded P K Unit Empty) :
    (c.asking f).onMap = Request.asking f c.onMap := by
  rcases c with _ | _ | ⟨_, ⟨⟩⟩ | _ <;> rfl

end Request

namespace Map

/-- Makes a call that hashes a key and compares it with the stored ones. -/
def reply [BEq K] (c : MapCall K V) (s : Map K V) : Outcome (Map K V) (Reply K V) :=
  match c with
  | .insert key value => (s.insert key value).map .flag
  | .extend pairs => (s.extend pairs).map fun _ => .done
  | .find key => (s.find key).map .value
  | .findEntry key => (s.findEntry key).map .entry
  | .update key f => (s.update key fun value => (value, f value)).map .value
  | .contains key => (s.contains key).map .flag
  | .remove key => (s.remove key).map .flag
  | .removeEntry key => (s.removeEntry key).map .entry
  | .clear => s.clear.map fun _ => .done

/-- Makes a request. The predicate of the caller is given the store under probe. -/
def serve (c : Guarded (Store K V → ExceptT Fault m Bool) K V (V → V)) (s : Map K V) :
    m (Outcome (Map K V) (Reply K V)) :=
  match c with
  | .insert ⟨none, eq⟩ key value =>
    (·.map .flag) <$> s.insertBy (fun busy stored key => eq stored key busy) key value
  | .insert ⟨some hash, eq⟩ key value =>
    (fun o => (o.map .flag).within (⟨·, s.hashOf⟩)) <$>
      s.toStore.insertWithHash hash key value fun busy stored key => eq stored key busy
  | .find (.equal key eq) =>
    (·.map .entry) <$> s.findBy (fun busy stored key => eq stored key busy) key
  | .find (.under hash accept) =>
    (fun o => (o.map .entry).within (⟨·, s.hashOf⟩)) <$>
      s.toStore.findWithHash hash fun busy stored => accept stored busy
  | .update (.equal key eq) f =>
    (·.map .value) <$> s.updateBy (fun busy stored key => eq stored key busy) key fun value =>
      (value, f value)
  | .update (.under hash accept) f =>
    (fun o => (o.map .value).within (⟨·, s.hashOf⟩)) <$>
      s.toStore.updateWithHash hash (fun busy stored => accept stored busy) fun value =>
        (value, f value)
  | .remove (.equal key eq) =>
    (·.map .entry) <$> s.removeBy (fun busy stored key => eq stored key busy) key
  | .remove (.under hash accept) =>
    (fun o => (o.map .entry).within (⟨·, s.hashOf⟩)) <$>
      s.toStore.removeWithHash hash fun busy stored => accept stored busy

def answer (c : Guarded Bool K V (V → V)) (s : Map K V) : Outcome (Map K V) (Reply K V) :=
  Id.run (s.serve (c.asking fun accepted _ => pure accepted))

end Map

namespace KeySet

def reply [BEq K] (c : SetCall K) (s : KeySet K) : Outcome (KeySet K) (Reply K Unit) :=
  match c with
  | .insert key => (s.insert key).map .flag
  | .extend keys => (s.extend keys).map fun _ => .done
  | .find key => (s.find key).map .key
  | .contains key => (s.contains key).map .flag
  | .remove key => (s.remove key).map .flag
  | .take key => (s.take key).map .key
  | .clear => s.clear.map fun _ => .done

def serve (c : Guarded (Store K Unit → ExceptT Fault m Bool) K Unit Empty) (s : KeySet K) :
    m (Outcome (KeySet K) (Reply K Unit)) :=
  match c with
  | .insert ⟨none, eq⟩ key _ =>
    (fun o => (o.map .flag).within mk) <$>
      s.map.insertBy (fun busy stored key => eq stored key busy) key ()
  | .insert ⟨some hash, eq⟩ key _ =>
    (·.map .flag) <$> s.insertWithHash hash key fun busy stored key => eq stored key busy
  | .find (.equal key eq) =>
    (fun o => (o.map fun found => .key (found.map Prod.fst)).within mk) <$>
      s.map.findBy (fun busy stored key => eq stored key busy) key
  | .find (.under hash accept) =>
    (·.map .key) <$> s.findWithHash hash fun busy stored => accept stored busy
  | .update _ change => nomatch change
  | .remove (.equal key eq) =>
    (fun o => (o.map fun taken => .key (taken.map Prod.fst)).within mk) <$>
      s.map.removeBy (fun busy stored key => eq stored key busy) key
  | .remove (.under hash accept) =>
    (·.map .key) <$> s.removeWithHash hash fun busy stored => accept stored busy

def answer (c : Guarded Bool K Unit Empty) (s : KeySet K) : Outcome (KeySet K) (Reply K Unit) :=
  Id.run (s.serve (c.asking fun accepted _ => pure accepted))

/-- What a set shows of a reply of its map. -/
def member : Reply K Unit → Reply K Unit
  | .entry found => .key (found.map Prod.fst)
  | reply => reply

end KeySet

/-- What can be done to a map: a call about a key, a request of a caller who keeps a state, or a walk that
passes one entry with each writer in turn. -/
inductive MapAct (K V : Type) : Type 1 where
  | keyed (c : MapCall K V)
  | serve {σ : Type} (c : Guarded (Store K V → Query σ Bool) K V (V → V)) (w : σ)
  | rewrite {α : Type} (fs : List (K → V → α × V))

inductive SetAct (K : Type) : Type 1 where
  | keyed (c : SetCall K)
  | serve {σ : Type} (c : Guarded (Store K Unit → Query σ Bool) K Unit Empty) (w : σ)

namespace MapAct

def run [BEq K] (a : MapAct K V) (s : Map K V) : Outcome (Map K V) (Reply K V) :=
  match a with
  | .keyed c => s.reply c
  | .serve c w => ((s.serve c).run w).1
  | .rewrite fs => (s.rewrite fs).map fun _ => .done

def inserts : MapAct K V → Nat
  | .keyed (.insert _ _) => 1
  | .keyed (.extend pairs) => pairs.length
  | .keyed _ => 0
  | .serve c _ => c.inserts
  | .rewrite _ => 0

end MapAct

namespace SetAct

def run [BEq K] (a : SetAct K) (s : KeySet K) : Outcome (KeySet K) (Reply K Unit) :=
  match a with
  | .keyed c => s.reply c
  | .serve c w => ((s.serve c).run w).1

def inserts : SetAct K → Nat
  | .keyed (.insert _) => 1
  | .keyed (.extend keys) => keys.length
  | .keyed _ => 0
  | .serve c _ => c.inserts

end SetAct

def SetCall.onMap : SetCall K → MapCall K Unit
  | .insert key => .insert key ()
  | .extend keys => .extend (keys.map fun key => (key, ()))
  | .find key => .findEntry key
  | .contains key => .contains key
  | .remove key => .remove key
  | .take key => .removeEntry key
  | .clear => .clear

def SetAct.onMap : SetAct K → MapAct K Unit
  | .keyed c => .keyed c.onMap
  | .serve c w => .serve c.onMap w

@[simp] theorem SetAct.inserts_onMap (a : SetAct K) : a.onMap.inserts = a.inserts := by
  cases a with
  | keyed c =>
    cases c with
    | extend keys => exact List.length_map _
    | _ => rfl
  | serve c w => exact c.inserts_onMap

theorem Map.extend_append_singleton [BEq K] (s : Map K V) (pairs : List (K × V)) (p : K × V) :
    s.extend (pairs ++ [p]) =
      (s.extend pairs).bind fun _ s => (s.insert p.1 p.2).map fun _ => () :=
  Outcome.fold_append_single ..

namespace KeySet

theorem extend_eq [BEq K] (s : Map K Unit) (keys : List K) :
    (KeySet.mk s).extend keys = (s.extend (keys.map fun key => (key, ()))).within mk := by
  induction keys using List.reverseRecOn with
  | nil => rfl
  | append_singleton keys key ih =>
    rw [extend] at ih
    rw [extend, Outcome.fold_append_single, ih, List.map_append, List.map_singleton,
      Map.extend_append_singleton]
    rcases s.extend (keys.map fun key => (key, ())) with ⟨fault | a, s', events⟩
    · rfl
    · rfl

theorem reply_eq [BEq K] (s : KeySet K) (c : SetCall K) :
    s.reply c = ((s.map.reply c.onMap).map member).within mk := by
  rcases s with ⟨s⟩
  cases c with
  | extend keys =>
    rw [reply, extend_eq, SetCall.onMap, Map.reply]
    rcases s.extend (keys.map fun key => (key, ())) with ⟨fault | a, s', events⟩ <;> rfl
  | insert key =>
    simp only [reply, insert, SetCall.onMap, Map.reply]
    rcases s.insert key () with ⟨fault | added, s', events⟩ <;> rfl
  | find key =>
    simp only [reply, find, SetCall.onMap, Map.reply]
    rcases s.findEntry key with ⟨fault | found, s', events⟩ <;> rfl
  | contains key =>
    simp only [reply, contains, SetCall.onMap, Map.reply]
    rcases s.contains key with ⟨fault | found, s', events⟩ <;> rfl
  | remove key =>
    simp only [reply, remove, SetCall.onMap, Map.reply]
    rcases s.remove key with ⟨fault | found, s', events⟩ <;> rfl
  | take key =>
    simp only [reply, take, SetCall.onMap, Map.reply]
    rcases s.removeEntry key with ⟨fault | taken, s', events⟩ <;> rfl
  | clear =>
    simp only [reply, clear, SetCall.onMap, Map.reply]
    rcases s.clear with ⟨fault | _, s', events⟩ <;> rfl

theorem serve_eq [LawfulMonad m] (s : KeySet K)
    (c : Guarded (Store K Unit → ExceptT Fault m Bool) K Unit Empty) :
    s.serve c = (fun o => (o.map member).within mk) <$> s.map.serve c.onMap := by
  rcases s with ⟨⟨store, hashOf⟩⟩
  rcases c with ⟨⟨_ | hash, eq⟩, key, value⟩ | (⟨key, eq⟩ | ⟨hash, accept⟩) | ⟨_, ⟨⟩⟩ |
    (⟨key, eq⟩ | ⟨hash, accept⟩) <;>
  · simp only [serve, insertWithHash, findWithHash, removeWithHash, Request.onMap, Map.serve,
      Functor.map_map]
    congr 1
    funext o
    rcases o with ⟨fault | answer, store, events⟩ <;> rfl

theorem answer_eq (s : KeySet K) (c : Guarded Bool K Unit Empty) :
    s.answer c = ((s.map.answer c.onMap).map member).within mk := by
  rw [answer, serve_eq, Request.onMap_asking]
  rfl

end KeySet

/-- What is done to a set is done to its map. -/
theorem SetAct.run_eq [BEq K] (a : SetAct K) (s : KeySet K) :
    a.run s = ((a.onMap.run s.map).map KeySet.member).within KeySet.mk := by
  cases a with
  | keyed c => exact s.reply_eq c
  | serve c w =>
    rw [run, KeySet.serve_eq, StateT.run_map]
    rfl

end LinearProbing
