import Hypertok.Tier.Reconciler
import Hypertok.Load.RankFile
import Hypertok.Bpe.MergeRanked
import Hypertok.Bpe.PairMap
import Hypertok.Cache.ShortMap
import Hypertok.Cache.Long
import Hypertok.Cache.Configure
import Hypertok.Cache.ForceSplit
import Hypertok.Load.Remapping
import Hypertok.Load.HfBpeOrder
import Hypertok.Load.SentencePiece
import Hypertok.Decode.HotStrings
import Hypertok.Decode.Memo
import Hypertok.Convert.ByteMerges
import Hypertok.Convert.SentencePieceMerges
import Hypertok.Machine.Bytes
import Hypertok.Format.Writer
import Hypertok.Load.Cursors
import Hypertok.Load.HtkIndex
import Hypertok.Text.Nfc
import Hypertok.Pretokenize.O200kFamily
import Hypertok.Pretokenize.DeepSeekV3
import Hypertok.Pretokenize.CohereCommand
import Hypertok.Pretokenize.R50k
import Hypertok.Convert.SplitPatterns
import Hypertok.Pretokenize.Cl100k
import Hypertok.SentencePiece.Units
import Hypertok.Pretokenize.BitScans
import Hypertok.Cache.SpanBatch
import Hypertok.Encode.SafeSplit
import Hypertok.Load.ChunkRun
import Hypertok.Tier.Workers
import Hypertok.Tier.Session
import Hypertok.Encode.RoundTrip
import Hypertok.Encode.ChunkStream
