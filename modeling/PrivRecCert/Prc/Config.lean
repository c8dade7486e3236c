import PrivRecCert.CorRnd.Beaver
import PrivRecCert.CorRnd.DaBit
import PrivRecCert.Numeric.Binary64

/-! The configuration of a system: the peers with their seeds and the shape of the database. The
providers of correlated randomness are generated from it. -/
namespace PrivRecCert.Prc
open CorRnd Numeric

structure PeerInfo where
  id : ℕ
  seed : Seed

structure DBConfig where
  dbRecordSize : ℕ
  l1Dim : ℕ
  l2Dim : ℕ
  dbSeed : Option Seed

/-- The number of records. -/
def DBConfig.getMaxSize (c : DBConfig) : ℕ := c.l1Dim * c.l2Dim

structure SystemConfig where
  peers : List PeerInfo
  dbConfig : DBConfig

/-- `n as f64` times a constant of `halves` halves, rounded up to an integer. -/
def ceilMul (halves n : ℕ) : ℕ := saturate (ceilHalf (mulHalves halves n))

/-- A `usize`, unless the arithmetic overflows. -/
def checkedUsize (n : ℕ) : Option ℕ := if n < 2^64 then some n else none

namespace SystemConfig

def getPartyNum (c : SystemConfig) : ℕ := c.peers.length

/-- Bits of Beaver triples for one query: 2.5 times `l2_dim`, 1.5 times `l1_dim`, and alignment. -/
def beaverPerQ (c : SystemConfig) : Option ℕ := do
  checkedUsize ((← checkedUsize (ceilMul 5 c.dbConfig.l2Dim + ceilMul 3 c.dbConfig.l1Dim)) + 3*32)

def genBeaverProvider (chacha : ChaCha8Rng.Keystream) (c : SystemConfig) (id bitNum : ℕ) : Option BeaverProvider :=
  if id = 0 then do
    let othersSeed := (c.peers.drop 1).map PeerInfo.seed
    BeaverProvider.new.generateAsDealer chacha bitNum (← c.peers[0]?).seed othersSeed
  else do
    BeaverProvider.new.generateWithSeed chacha bitNum (← c.peers[id]?).seed

def genDabitProvider (chacha : ChaCha8Rng.Keystream) (c : SystemConfig) (id bitNum : ℕ) : Option DaBitProvider :=
  if id = 0 then do
    let othersSeed := (c.peers.drop 1).map PeerInfo.seed
    DaBitProvider.generateAsDealer chacha bitNum (← c.peers[0]?).seed othersSeed
  else do
    some (DaBitProvider.generateWithSeed chacha bitNum (← c.peers[id]?).seed)

/-- The providers of party `id` for `expectedQueryNum` queries. -/
def initSeededCorrelatedRandomness (chacha : ChaCha8Rng.Keystream) (c : SystemConfig) (id expectedQueryNum : ℕ) :
    Option (BeaverProvider × DaBitProvider) := do
  let beaverMaxBitsize ← checkedUsize (expectedQueryNum * (← c.beaverPerQ))
  let dabitMaxSize ← checkedUsize (expectedQueryNum * 36)
  let beaverProvider ← c.genBeaverProvider chacha id beaverMaxBitsize
  let dabitProvider ← c.genDabitProvider chacha id dabitMaxSize
  some (beaverProvider, dabitProvider)

end SystemConfig
end PrivRecCert.Prc
