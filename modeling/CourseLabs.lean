import CourseLabs.CInt
import CourseLabs.CLoop
import CourseLabs.CMem
import CourseLabs.Dijkstra
import CourseLabs.DistanceVector
import CourseLabs.Hamming
import CourseLabs.ModMath
import CourseLabs.PathMath
import CourseLabs.RoutingAgree
import CourseLabs.Rsa
import CourseLabs.Syndrome
import CourseLabs.Gf2
import CourseLabs.Crc
import CourseLabs.BinaryHeap
import CourseLabs.BitString
import CourseLabs.HuffmanHeap
import CourseLabs.HuffmanBits
import CourseLabs.PrefixTree
import CourseLabs.OptimalCode
import CourseLabs.HuffmanTree
import CourseLabs.HuffmanCode
import CourseLabs.HuffmanFile
import CourseLabs.HuffmanRoundTrip
import CourseLabs.HuffmanSuccess
import CourseLabs.ConnectionQueue
import CourseLabs.Server
import CourseLabs.ClientPool
import CourseLabs.Shutdown
import CourseLabs.LineReader
import CourseLabs.Stuffing
import CourseLabs.BitFraming
import CourseLabs.ByteFraming
import CourseLabs.Checksum
import CourseLabs.CDouble
import CourseLabs.Extremes
import CourseLabs.Rainfall
import CourseLabs.MergeSort
import CourseLabs.QuickSort
import CourseLabs.SortAgree
import CourseLabs.ModExp
import CourseLabs.HuffmanShape
import CourseLabs.HuffmanParser
import CourseLabs.HuffmanFields
import CourseLabs.HuffmanSize
import CourseLabs.HuffmanHeapRuns
import CourseLabs.ByteUnstuff
import CourseLabs.CType
import CourseLabs.SubstitutionCipher
import CourseLabs.HammingBuffers
import CourseLabs.CrcBuffers
import CourseLabs.LineBounds
import CourseLabs.CNumber
import CourseLabs.CText
import CourseLabs.RainfallCsv
import CourseLabs.SignalHandler
import CourseLabs.Parity
import CourseLabs.LeakyBucket
import CourseLabs.Proxy
import CourseLabs.PptToPdf
import CourseLabs.RsaCheck
import CourseLabs.HammingSyndrome
import CourseLabs.SortLaws
import CourseLabs.BinarySearch
import CourseLabs.RangeSearch
import CourseLabs.DijkstraRoutes
import CourseLabs.SlidingWindow
import CourseLabs.GoBackN
import CourseLabs.StopAndWait
import CourseLabs.Wakeups
import CourseLabs.Halting
import CourseLabs.CodeBounds
import CourseLabs.HuffmanBounds
import CourseLabs.CaesarCipher
import CourseLabs.Nearest
import CourseLabs.PrintedNumber
import CourseLabs.RainfallRoundTrip
import CourseLabs.HuffmanMemoryFile
import CourseLabs.LeakyBucketShaping
import CourseLabs.UdpEcho
import CourseLabs.TcpEcho
import CourseLabs.Files
import CourseLabs.HuffmanSession
import CourseLabs.FileTransfer
