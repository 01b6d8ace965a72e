import Gloop.Gtl.IntervalSet.Run
import Gloop.Gtl.IntervalSet.Queries
import Gloop.Gtl.IntervalMap.Run
import Gloop.Gtl.IntervalMap.SubRange
import Gloop.Coding.TwoValuesVarint.RoundTrip
import Gloop.Coding.BitCoding.RoundTrip
import Gloop.Coding.FixedBitWidthArray.Run
import Gloop.Coding.Huffman.Restore
import Gloop.Coding.EliasFano.Simulation
import Gloop.Bitmap.Run
import Gloop.InlinedBitVector.Run
import Gloop.Gtl.CircularBuffer.Run
import Gloop.Strings.Backslash
import Gloop.Strings.OrderedKeys
import Gloop.Strings.Separators
import Gloop.Strings.HostPort
import Gloop.Strings.Base32.RoundTrip
import Gloop.DisjointSetForest.Run
import Gloop.Csv.RoundTrip
import Gloop.Gtl.Flat.Insert
import Gloop.Gtl.Flat.Sort
import Gloop.Gtl.IntrusiveHeap.Run
import Gloop.Pq.AdjustablePriorityQueue.Run
import Gloop.Math.ConstantDivisor
import Gloop.Math.ExtendedGCD
import Gloop.Math.MulDiv
import Gloop.IntOps.SafeIntOps
import Gloop.Hash.Crc.Objects
import Gloop.Hash.Crc.Scramble
import Gloop.Net.IPAddress.Prefix
import Gloop.Net.IPAddress.Subnets
import Gloop.Time.MonotonicClock
